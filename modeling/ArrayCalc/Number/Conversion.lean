import ArrayCalc.Number.BinaryValue

/-! Conversions between stored integers, numbers and slots. An integer becomes a number only where
that is exact; a number becomes a slot of an array only if its integer part lies inside. -/
namespace ArrayCalc.Number

/-- The largest magnitude below which every integer is a number of its own, `2 ^ 53 - 1`. -/
def exactLimit : Nat := Nat.pow 2 53 - 1

/-- The number equal to an integer, none beyond the exact limit. -/
def ofInt? (value : Int) : Option Float :=
  if value.natAbs ≤ exactLimit then
    some (withSign (value < 0) value.natAbs.toUInt64.toFloat)
  else none

/-- The natural number nearest to `n` that has at most 53 significant binary digits; of two, the
one whose last digit is zero. -/
def roundToPrecision (n : Nat) : Nat :=
  let unit := Nat.pow 2 (n.log2 - 52)
  let below := n / unit
  let rest := n % unit
  if 2 * rest < unit ∨ (2 * rest = unit ∧ below % 2 = 0) then below * unit else (below + 1) * unit

/-- The slot that a subscript names in an array of the given size: its integer part, if it is
finite and lies in the array. The size takes part as a number, hence rounded. -/
def slot? (subscript : Float) (size : Nat) : Option Nat :=
  match integerPart? subscript with
  | none => none
  | some index => if 0 ≤ index ∧ index < roundToPrecision size then some index.toNat else none

def slotOfInt? (index : Int) (size : Nat) : Option Nat :=
  if 0 ≤ index ∧ index < size then some index.toNat else none

end ArrayCalc.Number
