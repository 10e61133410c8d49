import ArrayCalc.Proofs.Number.Normal

/-! Arithmetic on unpacked numbers that are integers. The sum, the difference and the product of two
of them are computed exactly and rounded then; if the exact result is within `2 ^ 53`, rounding finds
its 53 bits and packing keeps them. -/
namespace ArrayCalc.Number

open Float.Model (UnpackedFloat)
open Float.Model.UnpackedFloat

/-- An unpacked number that is an integer: zero under either sign, or a form with 53 bits. -/
inductive Whole : UnpackedFloat → Int → Prop where
  | zero (sign : Sign) : Whole (.zero sign) 0
  | finite (sign : Sign) {m k : Nat} {e : Int} (normal : IsNormal m) (value : (m : ℚ) * 2 ^ e = k) :
      Whole (.finite sign m e normal.pos) (sign.apply k)

section Whole

variable {u u' : UnpackedFloat} {m k : Nat} {e : Int} {n n' : Int}

theorem natAbs_apply (sign : Sign) (k : Nat) : (sign.apply k).natAbs = k := by
  cases sign <;> simp [Sign.apply]

theorem apply_neg (sign : Sign) (k : Int) : (-sign).apply k = -sign.apply k := by
  cases sign with
  | negative => exact (neg_neg k).symm
  | positive => rfl

theorem apply_mul (sign sign' : Sign) (k k' : Int) :
    (sign * sign').apply (k * k') = sign.apply k * sign'.apply k' := by
  cases sign <;> cases sign'
  · exact (neg_mul_neg k k').symm
  · exact (neg_mul k k').symm
  · exact (mul_neg k k').symm
  · rfl

theorem apply_value (value : (m : ℚ) * 2 ^ e = k) (sign : Sign) :
    ((sign.apply m : Int) : ℚ) * 2 ^ e = (sign.apply k : Int) := by
  cases sign with
  | positive => exact_mod_cast value
  | negative =>
    push_cast [Sign.apply]
    rw [neg_mul, value]

theorem IsNormal.exponent_bounds (h : IsNormal m) (value : (m : ℚ) * 2 ^ e = k) (pos : 0 < k)
    (small : k ≤ 2 ^ 53) : -52 ≤ e ∧ e ≤ 1 := by
  obtain ⟨q, t, normal, lower, upper, same⟩ := exists_isNormal pos small
  obtain ⟨-, rfl⟩ := h.unique normal (value.trans same.symm)
  exact ⟨lower, upper⟩

theorem pos_of_value (pos : 0 < m) (value : (m : ℚ) * 2 ^ e = k) : 0 < k := by
  have product : (0 : ℚ) < m * 2 ^ e := by positivity
  rw [value] at product
  exact_mod_cast product

/-- An integer other than zero has one form. -/
theorem Whole.unique (h : Whole u n) (h' : Whole u' n') (same : n = n') (solid : n ≠ 0) :
    u = u' := by
  cases h with
  | zero => exact absurd rfl solid
  | @finite sign m k e normal value =>
    cases h' with
    | zero => exact absurd same solid
    | @finite sign' m' k' e' normal' value' =>
      have pos := pos_of_value normal.pos value
      obtain ⟨rfl, rfl⟩ : sign = sign' ∧ k = k' := by
        cases sign <;> cases sign' <;> simp only [Sign.apply] at same <;> simp <;> omega
      obtain ⟨rfl, rfl⟩ := normal.unique normal' (value.trans value'.symm)
      rfl

/-- Packing loses nothing of an integer within the exact range. -/
theorem Whole.unpack_pack (h : Whole u n) (small : n.natAbs ≤ 2 ^ 53) :
    unpack .binary64 (pack .binary64 u) = u := by
  cases h with
  | zero sign => exact unpack_packedZero
  | finite sign normal value =>
    rw [natAbs_apply] at small
    obtain ⟨lower, upper⟩ := normal.exponent_bounds value (pos_of_value normal.pos value) small
    exact normal.unpack_pack (by omega) (by omega) sign

theorem whole_round (sign : Sign) (pos : 0 < m) (value : (m : ℚ) * 2 ^ e = k)
    (small : k ≤ 2 ^ 53) : Whole (UnpackedFloat.round .binary64 sign m e) (sign.apply k) := by
  obtain ⟨q, t, normal, lower, -, same⟩ := exists_isNormal (pos_of_value pos value) small
  rw [normal.round_eq (by omega) sign (value.trans same.symm)]
  exact .finite sign normal same

/-- Normalizing keeps an integer within the exact range. -/
theorem whole_normalize {significand : Int} (value : (significand : ℚ) * 2 ^ e = n)
    (small : n.natAbs ≤ 2 ^ 53) (sign : Sign) :
    Whole (UnpackedFloat.normalize .binary64 significand e sign) n := by
  have scale : (0 : ℚ) < 2 ^ e := by positivity
  rcases lt_trichotomy significand 0 with negative | rfl | positive
  · have below : n < 0 := by
      have product := mul_neg_of_neg_of_pos (Int.cast_lt_zero.mpr negative) scale
      rw [value] at product
      exact_mod_cast product
    obtain ⟨m, rfl⟩ := Int.exists_eq_neg_ofNat negative.le
    obtain ⟨k, rfl⟩ := Int.exists_eq_neg_ofNat below.le
    have magnitude : (m : ℚ) * 2 ^ e = k := by
      push_cast at value
      linarith
    simp only [UnpackedFloat.normalize, compare_lt_iff_lt.mpr negative, neg_neg, Int.toNat_natCast]
    exact whole_round .negative (by omega) magnitude (by omega)
  · rw [Int.cast_zero, zero_mul] at value
    obtain rfl : n = 0 := by exact_mod_cast value.symm
    exact .zero sign
  · have above : 0 < n := by
      have product := mul_pos (Int.cast_pos.mpr positive) scale
      rw [value] at product
      exact_mod_cast product
    obtain ⟨m, rfl⟩ := Int.eq_ofNat_of_zero_le positive.le
    obtain ⟨k, rfl⟩ := Int.eq_ofNat_of_zero_le above.le
    have magnitude : (m : ℚ) * 2 ^ e = k := by exact_mod_cast value
    simp only [UnpackedFloat.normalize, compare_gt_iff_gt.mpr positive, Int.toNat_natCast]
    exact whole_round .positive (by omega) magnitude (by omega)

theorem decreaseExponent_value (m : Nat) {e e' : Int} (le : e' ≤ e) :
    ((decreaseExponent m e e').1 : ℚ) * 2 ^ e' = m * 2 ^ e := by
  obtain ⟨d, rfl⟩ := exists_eq_sub le
  have amount : (e - (e - d)).toNat = d := by omega
  simp only [decreaseExponent, amount, Nat.shiftLeft_eq]
  push_cast
  rw [mul_assoc, ← zpow_natCast, ← zpow_add₀ (by norm_num)]
  congr 2
  omega

theorem Whole.neg (h : Whole u n) : Whole u.neg (-n) := by
  cases h with
  | zero sign => exact .zero _
  | finite sign normal value => exact apply_neg sign _ ▸ .finite (-sign) normal value

theorem Whole.add (h : Whole u n) (h' : Whole u' n') (small : (n + n').natAbs ≤ 2 ^ 53) :
    Whole (u.add .binary64 u') (n + n') := by
  cases h with
  | zero sign =>
    cases h' with
    | zero sign' => cases sign <;> cases sign' <;> exact .zero _
    | finite sign' normal value =>
      rw [zero_add]
      exact .finite sign' normal value
  | @finite sign m k e normal value =>
    cases h' with
    | zero sign' =>
      rw [add_zero]
      exact .finite sign normal value
    | @finite sign' m' k' e' normal' value' =>
      refine whole_normalize ?_ small .positive
      have first := apply_value ((decreaseExponent_value m (min_le_left e e')).trans value) sign
      have second := apply_value ((decreaseExponent_value m' (min_le_right e e')).trans value') sign'
      rw [Int.cast_add, Int.cast_add, add_mul]
      exact congrArg₂ (· + ·) first second

/-- A difference is the sum with the negated number. -/
theorem unpacked_sub_eq (u u' : UnpackedFloat) : u.sub .binary64 u' = u.add .binary64 u'.neg := by
  cases u with
  | notANumber => rfl
  | infinity | zero => cases u' <;> rfl
  | finite sign m e pos =>
    cases u' with
    | notANumber | infinity | zero => rfl
    | finite sign' m' e' pos' =>
      simp only [UnpackedFloat.sub, UnpackedFloat.add, UnpackedFloat.neg, apply_neg, sub_eq_add_neg]

theorem Whole.sub (h : Whole u n) (h' : Whole u' n') (small : (n - n').natAbs ≤ 2 ^ 53) :
    Whole (u.sub .binary64 u') (n - n') := by
  rw [unpacked_sub_eq, sub_eq_add_neg]
  exact h.add h'.neg small

theorem Whole.mul (h : Whole u n) (h' : Whole u' n') (small : (n * n').natAbs ≤ 2 ^ 53) :
    Whole (u.mul .binary64 u') (n * n') := by
  cases h with
  | zero sign =>
    rw [zero_mul]
    cases h' with
    | zero | finite => exact .zero _
  | @finite sign m k e normal value =>
    cases h' with
    | zero sign' =>
      rw [mul_zero]
      exact .zero _
    | @finite sign' m' k' e' normal' value' =>
      have product : ((m * m' : Nat) : ℚ) * 2 ^ (e + e') = (k * k' : Nat) := by
        push_cast
        rw [← value, ← value', zpow_add₀ (by norm_num)]
        ring
      have pos := pos_of_value (Nat.mul_pos normal.pos normal'.pos) product
      rw [← apply_mul, ← Nat.cast_mul] at small ⊢
      rw [natAbs_apply] at small
      obtain ⟨q, t, exact, lower, -, same⟩ := exists_isNormal pos small
      -- the product has more bits than its rounding, so that only zeros are dropped
      have le : e + e' ≤ t := by
        by_contra above
        obtain ⟨d, rfl⟩ := exists_eq_sub (not_le.mp above).le
        have scaled := eq_mul_two_pow (same.trans product.symm)
        have large := Nat.mul_le_mul normal.lower normal'.lower
        have scaled' := Nat.le_mul_of_pos_right (m * m') (Nat.two_pow_pos d)
        have small' := exact.upper
        omega
      obtain ⟨d, split⟩ := exists_eq_sub le
      have scaled := eq_mul_two_pow (split ▸ product.trans same.symm)
      simp only [UnpackedFloat.mul, scaled, split]
      rw [exact.roundWithAccuracy_eq (by omega)]
      exact .finite _ exact same

end Whole

end ArrayCalc.Number
