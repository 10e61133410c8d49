/-! Finite binary64 numbers as exact values. `BinaryValue.ofFloat?` reads a float as sign,
significand and power of two; NaN and the infinities have no such value. Everything that must be
exact about a float (its integer part, its decimal digits) is computed on this form in integers. -/
namespace ArrayCalc.Number

/-- A finite value: `significand * 2 ^ exponent`, negated if `negative`. Zero keeps its sign. -/
structure BinaryValue where
  negative : Bool
  significand : Nat
  exponent : Int
deriving DecidableEq, Repr

namespace BinaryValue

/-- The exact value of a finite float. A normal significand has 53 bits; below the normal range
the exponent stays at `-1074`. -/
def ofFloat? (x : Float) : Option BinaryValue :=
  match Float.Model.UnpackedFloat.unpack .binary64 x.toBits.toBitVec with
  | .notANumber => none
  | .infinity _ => none
  | .zero sign => some ⟨sign == .negative, 0, 0⟩
  | .finite sign significand exponent _ => some ⟨sign == .negative, significand, exponent⟩

def wholePart (v : BinaryValue) : Nat :=
  v.significand * Nat.pow 2 v.exponent.toNat / Nat.pow 2 (-v.exponent).toNat

def integerPart (v : BinaryValue) : Int :=
  if v.negative then -v.wholePart else v.wholePart

end BinaryValue

/-- The number rounded toward zero to an integer; none for NaN and the infinities. -/
def integerPart? (x : Float) : Option Int :=
  (BinaryValue.ofFloat? x).map BinaryValue.integerPart

/-- A magnitude under a sign, so that a negative zero can be built. -/
def withSign (negative : Bool) (magnitude : Float) : Float :=
  if negative then -magnitude else magnitude

/-- The number rounded toward zero, as a float: the sign survives (`-0.5` gives `-0`), and NaN and
the infinities stay as they are. A value with a fraction is below `2 ^ 53`, so its whole part is
exact again. -/
def truncate (x : Float) : Float :=
  match BinaryValue.ofFloat? x with
  | none => x
  | some v =>
    if 0 ≤ v.exponent then x else withSign v.negative v.wholePart.toUInt64.toFloat

end ArrayCalc.Number
