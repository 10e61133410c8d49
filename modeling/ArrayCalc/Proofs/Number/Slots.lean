import ArrayCalc.Evaluation.Operand
import ArrayCalc.Proofs.Evaluation.Traced
import ArrayCalc.Proofs.Number.Integers

/-! The slot that a subscript names always lies in the array. The size takes part as a number, so it
may be rounded up, but what a number is without its fraction is a number again, and none lies between
the size and its rounding. -/
namespace ArrayCalc

namespace Number

def truncation (q : ℚ) : ℤ := if 0 ≤ q then ⌊q⌋ else ⌈q⌉

/-- A finite number that is `n` without its fraction. -/
def Truncates (x : Float) (n : Int) : Prop :=
  ∃ v, BinaryValue.ofFloat? x = some v ∧ truncation v.toRat = n

variable {x : Float} {v : BinaryValue} {n : Int} {size i : Nat}

theorem isSome_ofFloat? (x : Float) : (BinaryValue.ofFloat? x).isSome = x.isFinite := by
  have status : x.isFinite = (unpacked x).isFinite := rfl
  rw [status, ofFloat?_eq]
  cases unpacked x <;> rfl

theorem Truncates.isFinite (h : Truncates x n) : x.isFinite = true := by
  obtain ⟨v, found, -⟩ := h
  rw [← isSome_ofFloat?, found, Option.isSome_some]

/-- The integer part is the exact value without its fraction. -/
theorem integerPart_eq (v : BinaryValue) : v.integerPart = truncation v.toRat := by
  have nonneg : 0 ≤ (v.significand : ℚ) * 2 ^ v.exponent := by positivity
  have whole : (v.wholePart : ℤ) = ⌊(v.significand : ℚ) * 2 ^ v.exponent⌋ := by
    rw [wholePart_eq_floor, Int.natCast_floor_eq_floor nonneg]
  rw [BinaryValue.integerPart, truncation, BinaryValue.toRat, mul_assoc, whole]
  generalize (v.significand : ℚ) * 2 ^ v.exponent = q at nonneg
  cases v.negative with
  | false => simp [nonneg]
  | true =>
    rcases nonneg.eq_or_lt with rfl | pos
    · simp
    · simp [pos, Int.ceil_neg]

theorem integerPart?_eq_some_iff : integerPart? x = some n ↔ Truncates x n := by
  simp [integerPart?, Truncates, integerPart_eq]

theorem significand_lt (found : BinaryValue.ofFloat? x = some v) : v.significand < 2 ^ 53 := by
  rw [ofFloat?_eq] at found
  cases form : unpacked x with
  | notANumber | infinity => simp [form] at found
  | zero sign =>
    simp only [form, Option.some.injEq] at found
    simp [← found]
  | finite sign m e pos =>
    simp only [form, Option.some.injEq] at found
    rw [← found]
    rcases isNormal_of_unpack form with normal | ⟨small, -⟩
    · exact normal.upper
    · exact small.trans (by norm_num)

/-- A number is a number again without its fraction. -/
theorem isPrecise_wholePart (small : v.significand < 2 ^ 53) : IsPrecise v.wholePart := by
  simp only [BinaryValue.wholePart, Nat.pow_eq]
  rcases le_total v.exponent 0 with le | le
  · have none : v.exponent.toNat = 0 := by omega
    rw [none, pow_zero, mul_one]
    exact isPrecise_of_le ((Nat.div_le_self _ _).trans small.le)
  · have none : (-v.exponent).toNat = 0 := by omega
    rw [none, pow_zero, Nat.div_one]
    exact isPrecise_mul_two_pow small.le _

theorem Truncates.isPrecise (h : Truncates x i) : IsPrecise i := by
  obtain ⟨v, found, value⟩ := h
  have whole : v.wholePart = i := by
    have signed : v.integerPart.natAbs = v.wholePart := by
      rw [BinaryValue.integerPart]
      split <;> simp
    rw [← signed, integerPart_eq, value, Int.natAbs_natCast]
  exact whole ▸ isPrecise_wholePart (significand_lt found)

theorem slot?_eq_some_iff :
    slot? x size = some i ↔ Truncates x i ∧ i < roundToPrecision size := by
  rw [slot?, ← integerPart?_eq_some_iff]
  cases integerPart? x with
  | none => simp
  | some index =>
    simp only [Option.some.injEq]
    split
    next inside =>
      rw [Option.some.injEq]
      omega
    next outside =>
      simp only [reduceCtorEq, false_iff]
      omega

theorem lt_of_slot? (selected : slot? x size = some i) : i < size := by
  obtain ⟨truncates, below⟩ := slot?_eq_some_iff.mp selected
  exact (roundsTo_roundToPrecision size).lt_of_lt truncates.isPrecise below

theorem slot?_eq_some_iff_of_exact (exact : size ≤ 2 ^ 53) :
    slot? x size = some i ↔ Truncates x i ∧ i < size := by
  rw [slot?_eq_some_iff, roundToPrecision_eq exact]

/-- Up to the exact range every slot has a number that names it. -/
theorem exists_slot? (exact : size ≤ 2 ^ 53) (inside : i < size) :
    ∃ y, slot? y size = some i := by
  have limit : exactLimit = 2 ^ 53 - 1 := rfl
  obtain ⟨y, -, denotes⟩ := exists_ofInt? (n := i) (by rw [Int.natAbs_natCast]; omega)
  refine ⟨y, ?_⟩
  rw [denotes.slot?_eq exact, if_pos (by omega), Int.toNat_natCast]

end Number

open Number

def Operand.ofSlot (name : String) (slot : Nat) (stored : Int) (position : Nat) : Traced Float := do
  let value ← Traced.ofOption (.valueTooLarge name stored position) (ofInt? stored)
  Traced.tell (.read name slot value)
  pure value

theorem Operand.element_of_slot? {table : Table} {name : String} {array : ArrayVariable}
    {namePosition position i : Nat} {x : Float} (known : table.array? name = some array)
    (selected : slot? x array.size = some i) (inside : i < array.values.size) :
    element table name namePosition x position = ofSlot name i array.values[i] position := by
  have stored : array.values.getD i 0 = array.values[i] := by simp [inside]
  simp only [element, known, selected, Traced.ofOption_some, pure_bind, stored, ofSlot]

/-- A subscript names a slot if it is finite and its value without the fraction is natural and below
the rounded size. The slot then lies in the array, and what it holds is read. Up to the exact range
the size is its own rounding, and all slots have their subscripts. -/
theorem slot?_in_bounds (x : Float) (size : Nat) :
    (∃ rounded, (∀ r, RoundsTo size r ↔ r = rounded) ∧
      ∀ i : Nat, slot? x size = some i ↔ Truncates x i ∧ i < rounded) ∧
    (∀ i : Nat, slot? x size = some i → x.isFinite = true ∧ Truncates x i ∧ i < size) ∧
    (size ≤ 2 ^ 53 →
      (∀ i : Nat, slot? x size = some i ↔ x.isFinite = true ∧ Truncates x i ∧ i < size) ∧
        ∀ i < size, ∃ y, slot? y size = some i) ∧
    ∀ (table : Table) (name : String) (array : ArrayVariable) (namePosition position i : Nat),
      table.array? name = some array → slot? x array.size = some i →
      ∃ inside : i < array.values.size,
        Operand.element table name namePosition x position =
          Operand.ofSlot name i array.values[i] position := by
  refine ⟨⟨_, fun r => roundsTo_iff, fun i => slot?_eq_some_iff⟩, ?_, ?_, ?_⟩
  · intro i selected
    have truncates := (slot?_eq_some_iff.mp selected).1
    exact ⟨truncates.isFinite, truncates, lt_of_slot? selected⟩
  · intro exact
    refine ⟨fun i => ?_, fun i => exists_slot? exact⟩
    rw [slot?_eq_some_iff_of_exact exact, iff_and_self]
    exact fun selected => selected.1.isFinite
  · intro table name array namePosition position i known selected
    exact ⟨lt_of_slot? selected, Operand.element_of_slot? known selected (lt_of_slot? selected)⟩

/-- The largest size is rounded up, and the last number below it names a slot all the same. The least
size that is no number is rounded down, so its last slot has no subscript. -/
theorem slot?_in_bounds_rounded :
    (roundToPrecision (2 ^ 64 - 1) = 2 ^ 64 ∧
      slot? (Float.ofBits 0x43efffffffffffff) (2 ^ 64 - 1) = some (2 ^ 64 - 2 ^ 11) ∧
      Truncates (Float.ofBits 0x43efffffffffffff) (2 ^ 64 - 2 ^ 11 : Nat)) ∧
    roundToPrecision (2 ^ 53 + 1) = 2 ^ 53 ∧
      slot? (Float.ofBits 0x4340000000000000) (2 ^ 53 + 1) = none := by
  have selected : slot? (Float.ofBits 0x43efffffffffffff) (2 ^ 64 - 1) =
      some (2 ^ 64 - 2 ^ 11) := by decide +kernel
  obtain ⟨-, sound, -⟩ := slot?_in_bounds (Float.ofBits 0x43efffffffffffff) (2 ^ 64 - 1)
  obtain ⟨-, truncates, -⟩ := sound _ selected
  exact ⟨⟨by decide +kernel, selected, truncates⟩, by decide +kernel, by decide +kernel⟩

end ArrayCalc
