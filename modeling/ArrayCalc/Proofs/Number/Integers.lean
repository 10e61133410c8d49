import ArrayCalc.Number.Conversion
import ArrayCalc.Operator
import ArrayCalc.Proofs.Number.Arithmetic
import ArrayCalc.Proofs.Number.Conversion
import ArrayCalc.Proofs.Number.Rounding

/-! Numbers that are integers. Within `2 ^ 53` the sum, the difference and the product of integers
are exact, and so are the conversions between integers and numbers, the integer part and the slot
that a subscript names. -/
namespace ArrayCalc.Number

open Float.Model (Format UnpackedFloat)
open Float.Model.UnpackedFloat

def BinaryValue.toRat (v : BinaryValue) : ℚ :=
  (if v.negative then -1 else 1) * v.significand * 2 ^ v.exponent

def Denotes (x : Float) (n : Int) : Prop :=
  ∃ v, BinaryValue.ofFloat? x = some v ∧ v.toRat = n

/-- The exact range of numbers: all integers in it are numbers. -/
def IsExact (n : Int) : Prop := n.natAbs ≤ 2 ^ 53

instance (n : Int) : Decidable (IsExact n) := inferInstanceAs (Decidable (n.natAbs ≤ 2 ^ 53))

def unpacked (x : Float) : UnpackedFloat := unpack .binary64 x.toBits.toBitVec

variable {x y : Float} {a b n : Int}

theorem ofFloat?_eq (x : Float) : BinaryValue.ofFloat? x =
    match unpacked x with
    | .notANumber => none
    | .infinity _ => none
    | .zero sign => some ⟨sign == .negative, 0, 0⟩
    | .finite sign significand exponent _ => some ⟨sign == .negative, significand, exponent⟩ := rfl

theorem toRat_finite (sign : Sign) (m : Nat) (e : Int) :
    (BinaryValue.mk (sign == .negative) m e).toRat = ((sign.apply m : Int) : ℚ) * 2 ^ e := by
  cases sign with
  | negative => simp [BinaryValue.toRat, Sign.apply]
  | positive =>
    have tag : (Sign.positive == Sign.negative) = false := rfl
    simp [BinaryValue.toRat, Sign.apply, tag]

/-- An integer value is an integer magnitude under the same sign. -/
theorem exists_magnitude {sign : Sign} {m : Nat} {e : Int}
    (value : ((sign.apply m : Int) : ℚ) * 2 ^ e = n) :
    ∃ k : Nat, n = sign.apply k ∧ (m : ℚ) * 2 ^ e = k := by
  have nonneg : (0 : ℚ) ≤ m * 2 ^ e := by positivity
  cases sign with
  | positive =>
    simp only [Sign.apply, Int.cast_natCast] at value
    have lower : 0 ≤ n := by
      rw [value] at nonneg
      exact_mod_cast nonneg
    obtain ⟨k, rfl⟩ := Int.eq_ofNat_of_zero_le lower
    exact ⟨k, rfl, by exact_mod_cast value⟩
  | negative =>
    simp only [Sign.apply, Int.cast_neg, Int.cast_natCast, neg_mul] at value
    have upper : n ≤ 0 := by
      have negated : (n : ℚ) ≤ 0 := by linarith
      exact_mod_cast negated
    obtain ⟨k, rfl⟩ := Int.exists_eq_neg_ofNat upper
    refine ⟨k, rfl, ?_⟩
    push_cast at value
    linarith

/-- An integer written with a fraction has that many zeros at the end. -/
theorem eq_mul_two_pow_of_value {m k d : Nat} (value : (m : ℚ) * 2 ^ (-(d : Int)) = k) :
    m = k * 2 ^ d := by
  refine eq_mul_two_pow (t := 0) ?_
  rw [zero_sub, value, zpow_zero, mul_one]

/-- A number denotes an integer if its unpacked form is one. -/
theorem denotes_iff : Denotes x n ↔ Whole (unpacked x) n := by
  rw [Denotes, ofFloat?_eq]
  constructor
  · rintro ⟨v, found, value⟩
    cases form : unpacked x with
    | notANumber | infinity => simp [form] at found
    | zero sign =>
      simp only [form, Option.some.injEq] at found
      obtain rfl : n = 0 := by
        have none : BinaryValue.toRat ⟨sign == .negative, 0, 0⟩ = 0 := by simp [BinaryValue.toRat]
        rw [← found, none] at value
        exact_mod_cast value.symm
      exact .zero sign
    | finite sign m e pos =>
      simp only [form, Option.some.injEq] at found
      rw [← found, toRat_finite] at value
      obtain ⟨k, rfl, magnitude⟩ := exists_magnitude value
      rcases isNormal_of_unpack form with normal | ⟨small, rfl⟩
      · exact .finite sign normal magnitude
      · -- a smaller significand has the least exponent, with which it is below one
        obtain ⟨d, deep, exponent⟩ : ∃ d : Nat, 52 ≤ d ∧ (-1074 : Int) = -d := ⟨1074, by simp⟩
        have scaled := eq_mul_two_pow_of_value (exponent ▸ magnitude)
        have large := Nat.le_mul_of_pos_left (2 ^ d) (pos_of_value pos magnitude)
        have wide : 2 ^ 52 ≤ 2 ^ d := Nat.pow_le_pow_right (by norm_num) deep
        omega
  · intro whole
    generalize unpacked x = u at whole
    cases whole with
    | zero sign => exact ⟨_, rfl, by simp [BinaryValue.toRat]⟩
    | finite sign normal value => exact ⟨_, rfl, by rw [toRat_finite, apply_value value]⟩

theorem denotes_of_whole {u : UnpackedFloat} (whole : Whole u n) (exact : IsExact n)
    (packed : unpacked x = unpack .binary64 (pack .binary64 u)) : Denotes x n := by
  rw [denotes_iff, packed, whole.unpack_pack exact]
  exact whole

section Operations

variable (first : Denotes x a) (second : Denotes y b)
include first second

theorem denotes_add (exact : IsExact (a + b)) : Denotes (x + y) (a + b) :=
  denotes_of_whole ((denotes_iff.mp first).add (denotes_iff.mp second) exact) exact rfl

theorem denotes_sub (exact : IsExact (a - b)) : Denotes (x - y) (a - b) :=
  denotes_of_whole ((denotes_iff.mp first).sub (denotes_iff.mp second) exact) exact rfl

theorem denotes_mul (exact : IsExact (a * b)) : Denotes (x * y) (a * b) :=
  denotes_of_whole ((denotes_iff.mp first).mul (denotes_iff.mp second) exact) exact rfl

end Operations

theorem denotes_neg (h : Denotes x n) (exact : IsExact n) : Denotes (-x) (-n) :=
  denotes_of_whole (denotes_iff.mp h).neg (by rwa [IsExact, Int.natAbs_neg]) rfl

theorem denotes_toFloat {k : Nat} (exact : k ≤ 2 ^ 53) : Denotes k.toUInt64.toFloat k := by
  have wide : k.toUInt64.toNat = k := by
    rw [Nat.toUInt64_eq, UInt64.toNat_ofNat']
    exact Nat.mod_eq_of_lt (by omega)
  have whole : Whole (UnpackedFloat.normalize .binary64 k.toUInt64.toNat 0 .positive) k := by
    rw [wide]
    exact whole_normalize (by simp) (by simpa using exact) .positive
  exact denotes_of_whole whole (by simpa [IsExact] using exact) rfl

theorem denotes_withSign {negative : Bool} {k : Nat} (h : Denotes x k) (exact : k ≤ 2 ^ 53) :
    Denotes (withSign negative x) (if negative then -k else k) := by
  cases negative with
  | false => exact h
  | true => exact denotes_neg h (by simpa [IsExact] using exact)

/-- A stored integer that becomes a number is denoted by it. -/
theorem denotes_of_ofInt? (h : ofInt? n = some x) : Denotes x n := by
  have small := natAbs_le_of_ofInt? h
  rw [ofInt?, if_pos small, Option.some.injEq] at h
  rw [← h]
  have exact : n.natAbs ≤ 2 ^ 53 := small.trans (by decide)
  have magnitude := denotes_toFloat exact
  rcases lt_or_ge n 0 with negative | nonneg
  · rw [withSign, decide_eq_true negative, if_pos rfl]
    have negated := denotes_neg magnitude exact
    rwa [Int.ofNat_natAbs_of_nonpos negative.le, neg_neg] at negated
  · rw [withSign, decide_eq_false (not_lt.mpr nonneg)]
    rwa [Int.natAbs_of_nonneg nonneg] at magnitude

theorem exists_ofInt? (small : n.natAbs ≤ exactLimit) : ∃ x, ofInt? n = some x ∧ Denotes x n := by
  cases converted : ofInt? n with
  | none => exact absurd (ofInt?_eq_none_iff.mp converted) (Nat.not_lt.mpr small)
  | some x => exact ⟨x, rfl, denotes_of_ofInt? converted⟩

/-- An integer other than zero is denoted by one number. -/
theorem Denotes.unique (h : Denotes x n) (h' : Denotes y n) (solid : n ≠ 0) : x = y := by
  have same : unpacked x = unpacked y := (denotes_iff.mp h).unique (denotes_iff.mp h') rfl solid
  have bits := (unpack_inj_of_valid x.toModel.valid y.toModel.valid).mp same
  exact Float.toBits_inj.mp (UInt64.toBitVec_inj.mp bits)

theorem wholePart_eq_floor (v : BinaryValue) :
    v.wholePart = ⌊(v.significand : ℚ) * 2 ^ v.exponent⌋₊ := by
  simp only [BinaryValue.wholePart]
  rcases le_total v.exponent 0 with le | le
  · obtain ⟨d, exponent⟩ := Int.exists_eq_neg_ofNat le
    have quotient : (v.significand : ℚ) * 2 ^ v.exponent = v.significand / (2 ^ d : Nat) := by
      rw [exponent, zpow_neg, zpow_natCast, div_eq_mul_inv]
      push_cast
      rfl
    rw [quotient, Nat.floor_div_eq_div, exponent]
    simp
  · obtain ⟨d, exponent⟩ := Int.eq_ofNat_of_zero_le le
    have product : (v.significand : ℚ) * 2 ^ v.exponent = (v.significand * 2 ^ d : Nat) := by
      rw [exponent, zpow_natCast]
      push_cast
      rfl
    rw [product, Nat.floor_natCast, exponent]
    simp

theorem wholePart_eq {v : BinaryValue} {k : Nat} (value : (v.significand : ℚ) * 2 ^ v.exponent = k) :
    v.wholePart = k := by
  rw [wholePart_eq_floor, value, Nat.floor_natCast]

/-- The parts of a number that denotes an integer. Only zero has no fraction bits to spare. -/
theorem Denotes.exists_value (h : Denotes x n) :
    ∃ v, BinaryValue.ofFloat? x = some v ∧ v.wholePart = n.natAbs ∧
      (if v.negative then -(n.natAbs : Int) else n.natAbs) = n ∧ (v.exponent < 0 → n ≠ 0) := by
  have whole := denotes_iff.mp h
  rw [ofFloat?_eq]
  generalize unpacked x = u at whole
  cases whole with
  | zero sign => exact ⟨_, rfl, by simp [BinaryValue.wholePart], by simp, by simp⟩
  | @finite sign m k e normal value =>
    have pos := pos_of_value normal.pos value
    refine ⟨_, rfl, ?_, ?_, fun _ => ?_⟩
    · rw [natAbs_apply]
      exact wholePart_eq value
    · rw [natAbs_apply]
      cases sign <;> rfl
    · cases sign <;> simp only [Sign.apply] <;> omega

/-- The integer part of an integer is that integer. -/
theorem Denotes.integerPart?_eq (h : Denotes x n) : integerPart? x = some n := by
  obtain ⟨v, found, whole, signed, -⟩ := h.exists_value
  rw [integerPart?, found, Option.map_some, BinaryValue.integerPart, whole, signed]

/-- Rounding an integer toward zero does not change the number. -/
theorem Denotes.truncate_eq (h : Denotes x n) (exact : IsExact n) : truncate x = x := by
  obtain ⟨v, found, whole, signed, solid⟩ := h.exists_value
  simp only [truncate, found]
  split
  · rfl
  · rename_i fraction
    have again : Denotes (withSign v.negative n.natAbs.toUInt64.toFloat)
        (if v.negative then -(n.natAbs : Int) else n.natAbs) :=
      denotes_withSign (denotes_toFloat exact) exact
    rw [signed] at again
    rw [whole]
    exact again.unique h (solid (not_le.mp fraction))

/-- An integer within the bounds of an array names its slot, and no other integer names one. -/
theorem Denotes.slot?_eq (h : Denotes x n) {size : Nat} (exact : size ≤ 2 ^ 53) :
    slot? x size = if 0 ≤ n ∧ n < size then some n.toNat else none := by
  rw [slot?, h.integerPart?_eq, roundToPrecision_eq exact]

end ArrayCalc.Number
