import ArrayCalc.Number.BinaryValue

/-! The shortest decimal that identifies a binary64 number. A decimal identifies a number if it lies
among the reals that round to it: from halfway to the neighbour below to halfway to the neighbour
above, ends included if the significand is even. The digits are found in exact integer arithmetic,
on a scale where the number and both ends are whole. -/
namespace ArrayCalc.Number

/-- A decimal, `digits * 10 ^ exponent`. -/
structure Decimal where
  digits : Nat
  exponent : Int
deriving DecidableEq, Repr

namespace Decimal

/-- The same decimal without zeros at the end of its digits. Tries at most `limit` of them. -/
def strip (d : Decimal) : Nat → Decimal
  | 0 => d
  | limit + 1 =>
    if d.digits ≠ 0 ∧ d.digits % 10 = 0 then strip ⟨d.digits / 10, d.exponent + 1⟩ limit else d

end Decimal

/-- The reals that round to a positive number, in units of `10 ^ exponent`: all those between
`low` and `high`, the ends themselves if `closed`. -/
structure RoundingInterval where
  low : Nat
  value : Nat
  high : Nat
  closed : Bool
  exponent : Int
deriving Repr

namespace RoundingInterval

/-- The interval of a value. The gap to the neighbour below a power of two is half as wide as the
gap above, except where the exponent cannot fall any further. Quarters of the last binary digit
make both ends whole; multiplying by five for each binary place makes them decimal. -/
def ofBinary (v : BinaryValue) : RoundingInterval :=
  let quarter := v.exponent - 2
  let scale := Nat.pow 2 quarter.toNat * Nat.pow 5 (-quarter).toNat
  let narrow := v.significand = Nat.pow 2 52 ∧ v.exponent > -1074
  { low := (4 * v.significand - if narrow then 1 else 2) * scale
    value := 4 * v.significand * scale
    high := (4 * v.significand + 2) * scale
    closed := v.significand % 2 = 0
    exponent := -((-quarter).toNat : Int) }

/-- Whether a decimal on the scale of the interval rounds to its number. -/
def holds (i : RoundingInterval) (candidate : Nat) : Bool :=
  if i.closed then i.low ≤ candidate && candidate ≤ i.high
  else i.low < candidate && candidate < i.high

/-- The decimal nearest to the number among the multiples of `10 ^ places`, if it identifies the
number. Of the two multiples around the number only those inside the interval count, and halfway
the upper one is taken. -/
def nearest? (i : RoundingInterval) (places : Nat) : Option Decimal :=
  let grid := Nat.pow 10 places
  let below := i.value / grid
  let lower := i.holds (below * grid)
  let upper := i.holds ((below + 1) * grid)
  if lower && (!upper || 2 * i.value < (2 * below + 1) * grid) then
    some ⟨below, i.exponent + places⟩
  else if upper then some ⟨below + 1, i.exponent + places⟩
  else none

/-- The first decimal found that identifies the number, going from `places - 1` to finer grids;
the number itself, written out, if none does. -/
def search (i : RoundingInterval) : Nat → Decimal
  | 0 => ⟨i.value, i.exponent⟩
  | places + 1 =>
    match i.nearest? places with
    | some d => d
    | none => search i places

end RoundingInterval

/-- The decimal of fewest digits that identifies a value, the nearest of them to it. -/
def shortest (v : BinaryValue) : Decimal :=
  let interval := RoundingInterval.ofBinary v
  let width := (Nat.toDigits 10 interval.value).length
  (interval.search width).strip width

end ArrayCalc.Number
