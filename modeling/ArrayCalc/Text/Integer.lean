/-! Integers in records: an optional sign and at least one ASCII digit, in the range of 32 bits.
Leading zeros are allowed. -/
namespace ArrayCalc.Text

/-- The value of a run of at least one ASCII digit. -/
def natural? (text : List Char) : Option Nat :=
  if text ≠ [] ∧ text.all Char.isDigit then some (Nat.ofDigitChars 10 text 0) else none

/-- The value of digits under an optional sign. -/
def integer? : List Char → Option Int
  | '+' :: digits => (natural? digits).map Int.ofNat
  | '-' :: digits => (natural? digits).map fun n => -Int.ofNat n
  | digits => (natural? digits).map Int.ofNat

/-- The number of integers of 32 bits that are not negative. -/
def int32Limit : Nat := Nat.pow 2 31

def int32? (word : String) : Option Int :=
  (integer? word.toList).filter fun value => -int32Limit ≤ value ∧ value < int32Limit

/-- The array size that a word writes: a 32-bit integer that is not negative. -/
def size? (word : String) : Option Nat :=
  ((int32? word).filter (0 ≤ ·)).map Int.toNat

end ArrayCalc.Text
