import ArrayCalc.Number.Shortest

/-! The text of a number: the fewest digits that identify it, always written positionally, without
a point for integers. Zero keeps its sign, and the values that are no reals have names. -/
namespace ArrayCalc.Number

/-- The digits of a decimal with the point in place and no exponent. -/
def Decimal.positional (d : Decimal) : List Char :=
  let digits := Nat.toDigits 10 d.digits
  let fraction := (-d.exponent).toNat
  if fraction = 0 then digits ++ List.replicate d.exponent.toNat '0'
  else if digits.length ≤ fraction then
    '0' :: '.' :: (List.replicate (fraction - digits.length) '0' ++ digits)
  else
    let whole := digits.length - fraction
    digits.take whole ++ '.' :: digits.drop whole

def BinaryValue.text (v : BinaryValue) : List Char :=
  let magnitude := if v.significand = 0 then ['0'] else (shortest v).positional
  if v.negative then '-' :: magnitude else magnitude

def text (x : Float) : String :=
  match BinaryValue.ofFloat? x with
  | some v => String.ofList v.text
  | none => if x.isNaN then "NaN" else if x < 0 then "-inf" else "inf"

end ArrayCalc.Number
