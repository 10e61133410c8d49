import Mathlib
import ArrayCalc.Number.BinaryValue

/-! The form in which numbers have whole values. An integer other than zero that is within `2 ^ 53`
has one significand of exactly 53 bits, with an exponent near zero. Rounding keeps a value that has
such a form, and packing a number and unpacking it again keeps the form. -/
namespace ArrayCalc.Number

open Float.Model (Format UnpackedFloat totalExponent)
open Float.Model.UnpackedFloat

/-- A significand of exactly 53 bits. -/
structure IsNormal (significand : Nat) : Prop where
  lower : 2 ^ 52 ≤ significand
  upper : significand < 2 ^ 53

section Values

variable {m q k : Nat} {e t : Int}

/-- Of two forms of one value, that with the smaller exponent has the larger significand. -/
theorem eq_mul_two_pow {d : Nat} (same : (m : ℚ) * 2 ^ (t - d) = q * 2 ^ t) : m = q * 2 ^ d := by
  have parts : (2 : ℚ) ^ t = 2 ^ d * 2 ^ (t - d) := by
    rw [← zpow_natCast, ← zpow_add₀ (by norm_num)]
    congr 1
    omega
  rw [parts, ← mul_assoc] at same
  have whole := mul_right_cancel₀ (zpow_ne_zero _ (by norm_num)) same
  exact_mod_cast whole

theorem exists_eq_sub {e t : Int} (le : e ≤ t) : ∃ d : Nat, e = t - d :=
  ⟨(t - e).toNat, by omega⟩

theorem IsNormal.pow_eq_zero (h : IsNormal q) {d : Nat} (small : q * 2 ^ d < 2 ^ 53) : d = 0 := by
  by_contra positive
  have doubles : 2 ^ 1 ≤ 2 ^ d := Nat.pow_le_pow_right (by norm_num) (by omega)
  have large := Nat.mul_le_mul h.lower doubles
  omega

/-- A value has one form with 53 bits. -/
theorem IsNormal.unique (h : IsNormal m) (h' : IsNormal q)
    (same : (m : ℚ) * 2 ^ e = q * 2 ^ t) : m = q ∧ e = t := by
  rcases le_total e t with le | le
  · obtain ⟨d, rfl⟩ := exists_eq_sub le
    have scaled := eq_mul_two_pow same
    obtain rfl := h'.pow_eq_zero (scaled ▸ h.upper)
    simpa using scaled
  · obtain ⟨d, rfl⟩ := exists_eq_sub le
    have scaled := eq_mul_two_pow same.symm
    obtain rfl := h.pow_eq_zero (scaled ▸ h'.upper)
    simpa using scaled.symm

/-- A positive integer within the exact range has a form with 53 bits. -/
theorem exists_isNormal (pos : 0 < k) (small : k ≤ 2 ^ 53) :
    ∃ (q : Nat) (t : Int), IsNormal q ∧ -52 ≤ t ∧ t ≤ 1 ∧ (q : ℚ) * 2 ^ t = k := by
  by_cases largest : k = 2 ^ 53
  · refine ⟨2 ^ 52, 1, ⟨by norm_num, by norm_num⟩, by norm_num, by norm_num, ?_⟩
    rw [largest]
    norm_num
  · have bits : k.log2 < 53 := (Nat.log2_lt (by omega)).mpr (by omega)
    have below := Nat.log2_self_le (n := k) (by omega)
    have above := @Nat.lt_log2_self k
    have lower : 2 ^ k.log2 * 2 ^ (52 - k.log2) = 2 ^ 52 := by
      rw [← pow_add]
      congr 1
      omega
    have upper : 2 ^ (k.log2 + 1) * 2 ^ (52 - k.log2) = 2 ^ 53 := by
      rw [← pow_add]
      congr 1
      omega
    refine ⟨k * 2 ^ (52 - k.log2), k.log2 - 52, ⟨?_, ?_⟩, by omega, by omega, ?_⟩
    · exact lower ▸ Nat.mul_le_mul_right _ below
    · exact upper ▸ Nat.mul_lt_mul_of_pos_right above (by positivity)
    · have exponent : ((k.log2 : Int) - 52) = -((52 - k.log2 : Nat) : Int) := by omega
      rw [exponent, zpow_neg, zpow_natCast]
      push_cast
      field_simp

end Values

section Rounding

variable {m q : Nat} {t : Int}

theorem totalExponent_mul_two_pow (pos : m ≠ 0) (e : Int) (d : Nat) :
    totalExponent (m * 2 ^ d) (e - d) = totalExponent m e := by
  have bits : (m * 2 ^ d).log2 = m.log2 + d := by
    rw [Nat.log2_eq_iff (Nat.mul_ne_zero pos (by positivity)), pow_add, Nat.add_right_comm, pow_add]
    exact ⟨Nat.mul_le_mul_right _ (Nat.log2_self_le pos),
      Nat.mul_lt_mul_of_pos_right Nat.lt_log2_self (by positivity)⟩
  rw [totalExponent, totalExponent, bits]
  omega

theorem IsNormal.pos (h : IsNormal q) : 0 < q := Nat.lt_of_lt_of_le (by norm_num) h.lower

theorem IsNormal.log2_eq (h : IsNormal q) : q.log2 = 52 :=
  (Nat.log2_eq_iff h.pos.ne').mpr ⟨h.lower, h.upper⟩

theorem IsNormal.targetExponent_eq (h : IsNormal q) (bounded : -1074 ≤ t) :
    Format.binary64.targetExponent (totalExponent q t) = t := by
  rw [totalExponent, h.log2_eq]
  simp only [Format.targetExponent, Format.mantissaBits, Format.minExponent]
  norm_num
  omega

/-- Dropping zeros from a significand is exact. -/
theorem shiftRight_mul_two_pow (q d : Nat) :
    (⟨q * 2 ^ d, false, false⟩ : ExtendedMantissa) >>> d = ⟨q, false, false⟩ := by
  induction d generalizing q with
  | zero => simp [HShiftRight.hShiftRight, Nat.repeat]
  | succ d ih =>
    have before := ih (q * 2)
    rw [mul_assoc, ← pow_succ'] at before
    change ExtendedMantissa.shiftRightOne
      ((⟨q * 2 ^ (d + 1), false, false⟩ : ExtendedMantissa) >>> d) = _
    rw [before]
    simp [ExtendedMantissa.shiftRightOne]

theorem IsNormal.shiftToTargetExponent_eq (h : IsNormal q) (bounded : -1074 ≤ t) (d : Nat) :
    shiftToTargetExponent .binary64 (q * 2 ^ d) (t - d) .exact = (⟨q, false, false⟩, t) := by
  have amount : (t - (t - d)).toNat = d := by omega
  simp only [shiftToTargetExponent, totalExponent_mul_two_pow h.pos.ne',
    h.targetExponent_eq bounded, shiftToExponent, amount, ExtendedMantissa.ofMantissaAndAccuracy,
    shiftRight_mul_two_pow]
  congr 1
  omega

/-- Rounding a longer significand that ends in zeros is exact. -/
theorem IsNormal.roundWithAccuracy_eq (h : IsNormal q) (bounded : -1074 ≤ t) (sign : Sign)
    (d : Nat) : roundWithAccuracy .binary64 sign (q * 2 ^ d) (t - d) .exact =
      .finite sign q t h.pos := by
  have again := h.shiftToTargetExponent_eq bounded 0
  rw [pow_zero, mul_one, Nat.cast_zero, sub_zero] at again
  have rounded : (⟨q, false, false⟩ : ExtendedMantissa).roundedMantissa = q := rfl
  simp [roundWithAccuracy, h.shiftToTargetExponent_eq bounded d, rounded, again, h.pos.ne']

/-- Rounding keeps a value that has a form with 53 bits, whatever form it is given in. -/
theorem IsNormal.round_eq {e : Int} (h : IsNormal q) (bounded : -1074 ≤ t) (sign : Sign)
    (same : (m : ℚ) * 2 ^ e = q * 2 ^ t) :
    UnpackedFloat.round .binary64 sign m e = .finite sign q t h.pos := by
  rcases le_total e t with le | le
  · obtain ⟨d, rfl⟩ := exists_eq_sub le
    obtain rfl := eq_mul_two_pow same
    have none : (t - d - t).toNat = 0 := by omega
    simp only [UnpackedFloat.round, totalExponent_mul_two_pow h.pos.ne', h.targetExponent_eq bounded,
      decreaseExponent, none, Nat.shiftLeft_zero, Nat.cast_zero, sub_zero]
    exact h.roundWithAccuracy_eq bounded sign d
  · obtain ⟨d, rfl⟩ := exists_eq_sub le
    obtain rfl := eq_mul_two_pow same.symm
    have solid : m ≠ 0 := left_ne_zero_of_mul h.pos.ne'
    have target := h.targetExponent_eq bounded
    rw [totalExponent_mul_two_pow solid] at target
    have amount : (e - (e - d)).toNat = d := by omega
    have exact := h.roundWithAccuracy_eq bounded sign 0
    rw [pow_zero, mul_one, Nat.cast_zero, sub_zero] at exact
    simpa only [UnpackedFloat.round, target, decreaseExponent, amount, Nat.shiftLeft_eq] using exact

end Rounding

section Packing

variable {q : Nat} {t : Int}

theorem toNat_exponent {biased : Nat} (small : biased < 2047) :
    (BitVec.ofNat 11 biased).toNat = biased := by
  rw [BitVec.toNat_ofNat]
  exact Nat.mod_eq_of_lt (by omega)

/-- The exponents of normal numbers are neither that of the infinities nor that of zero. -/
theorem exponent_ne {biased : Nat} (pos : 0 < biased) (small : biased < 2047) :
    BitVec.ofNat 11 biased ≠ -1#11 ∧ BitVec.ofNat 11 biased ≠ 0#11 := by
  have value := toNat_exponent small
  constructor
  · intro top
    rw [top] at value
    have all : (-1#11 : BitVec 11).toNat = 2047 := by decide
    omega
  · intro zero
    rw [zero] at value
    have none : (0#11 : BitVec 11).toNat = 0 := by decide
    omega

/-- The first of the 53 bits is not stored, and found again. -/
theorem IsNormal.toNat_significand (h : IsNormal q) : (1#1 ++ BitVec.ofNat 52 q).toNat = q := by
  have lower := h.lower
  have upper := h.upper
  rw [BitVec.toNat_append, ← Nat.shiftLeft_add_eq_or_of_lt (BitVec.isLt _), BitVec.toNat_ofNat,
    BitVec.toNat_ofNat, Nat.shiftLeft_eq]
  omega

theorem IsNormal.pack_eq (h : IsNormal q) {biased : Nat} (small : biased < 2047) (sign : Sign) :
    pack .binary64 (.finite sign q (biased - 1075) h.pos) =
      packComponents .binary64 sign (BitVec.ofNat 11 biased) (BitVec.ofNat 52 q) := by
  have exponent : ((biased : Int) - 1075 + Format.binary64.exponentBias + (52 : Nat)).toNat =
      biased := by
    simp only [Format.exponentBias]
    omega
  simp only [pack, exponent, h.log2_eq]
  rw [if_neg (by omega), if_pos (by simp [Format.mantissaBits])]

/-- Packing and unpacking keeps a form with 53 bits whose exponent fits. -/
theorem IsNormal.unpack_pack (h : IsNormal q) (lower : -1074 ≤ t) (upper : t ≤ 971) (sign : Sign) :
    unpack .binary64 (pack .binary64 (.finite sign q t h.pos)) = .finite sign q t h.pos := by
  obtain ⟨biased, rfl⟩ : ∃ biased : Nat, t = biased - 1075 := ⟨(t + 1075).toNat, by omega⟩
  have small : biased < 2047 := by omega
  obtain ⟨notTop, notZero⟩ := exponent_ne (by omega) small
  rw [h.pack_eq small]
  simp only [unpack, unpackMantissa_packComponents, unpackExponent_packComponents,
    unpackSign_packComponents, Sign.ofBitVec_toBitVec, notTop, notZero, if_false,
    toNat_exponent small, h.toNat_significand]
  rfl

theorem isNormal_append (fraction : BitVec 52) : IsNormal (1#1 ++ fraction).toNat := by
  have small := fraction.isLt
  rw [BitVec.toNat_append, ← Nat.shiftLeft_add_eq_or_of_lt small, Nat.shiftLeft_eq]
  exact ⟨by simp, by simp; omega⟩

/-- An unpacked number has 53 bits, or the least exponent. -/
theorem isNormal_of_unpack {bits : BitVec Format.binary64.numBits} {sign : Sign} {m : Nat} {e : Int}
    {pos : 0 < m} (h : unpack .binary64 bits = .finite sign m e pos) :
    IsNormal m ∨ m < 2 ^ 52 ∧ e = -1074 := by
  unfold unpack at h
  simp only at h
  split at h
  · split at h <;> simp at h
  · split at h
    · rename_i least
      split at h
      · simp at h
      · obtain ⟨-, rfl, rfl⟩ := UnpackedFloat.finite.inj h
        rw [least]
        exact .inr ⟨BitVec.isLt _, rfl⟩
    · obtain ⟨-, rfl, rfl⟩ := UnpackedFloat.finite.inj h
      exact .inl (isNormal_append _)

end Packing

end ArrayCalc.Number
