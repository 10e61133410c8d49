import ArrayCalc.Number.Conversion
import ArrayCalc.Proofs.Number.Normal

/-! Natural numbers as numbers of 53 bits. Rounding finds the nearest one, and of two the one whose
last bit is zero; no number lies between what is rounded and its rounding. -/
namespace ArrayCalc.Number

/-- A natural number with at most 53 significant bits. -/
def IsPrecise (n : Nat) : Prop := ∃ m e, m < 2 ^ 53 ∧ n = m * 2 ^ e

/-- Rounding to the nearest natural number of 53 bits, in a tie to that with an even significand. -/
structure RoundsTo (n r : Nat) : Prop where
  precise : IsPrecise r
  nearest : ∀ k, IsPrecise k → Nat.dist n r ≤ Nat.dist n k
  even : ∀ k, IsPrecise k → k ≠ r → Nat.dist n k = Nat.dist n r →
    ∃ m e, IsNormal m ∧ Even m ∧ r = m * 2 ^ e

variable {n r k m e : Nat}

theorem isPrecise_mul_two_pow (small : m ≤ 2 ^ 53) (e : Nat) : IsPrecise (m * 2 ^ e) := by
  rcases Nat.lt_or_eq_of_le small with below | rfl
  · exact ⟨m, e, below, rfl⟩
  · exact ⟨1, 53 + e, by norm_num, by rw [one_mul, pow_add]⟩

theorem isPrecise_of_le (small : n ≤ 2 ^ 53) : IsPrecise n := by
  simpa using isPrecise_mul_two_pow small 0

/-- What is a number itself and lies below a rounding lies below what was rounded. -/
theorem RoundsTo.lt_of_lt (h : RoundsTo n r) (precise : IsPrecise k) (lt : k < r) : k < n := by
  have nearest := h.nearest k precise
  simp only [Nat.dist] at nearest
  omega

theorem IsNormal.eq_of_mul_two_pow_eq {q t : Nat} (h : IsNormal m) (h' : IsNormal q)
    (same : m * 2 ^ e = q * 2 ^ t) : m = q := by
  have value : (m : ℚ) * 2 ^ (e : Int) = q * 2 ^ (t : Int) := by exact_mod_cast same
  exact (h.unique h' value).1

/-- The two neighbours of `n` among the multiples of a power of two that have 53 bits. -/
structure Brackets (n m e : Nat) : Prop where
  small : m < 2 ^ 53
  fine : e = 0 ∨ 2 ^ 52 ≤ m
  lower : m * 2 ^ e ≤ n
  upper : n < m * 2 ^ e + 2 ^ e

theorem brackets_div (n : Nat) : Brackets n (n / 2 ^ (n.log2 - 52)) (n.log2 - 52) := by
  have above := @Nat.lt_log2_self n
  have unit : 0 < 2 ^ (n.log2 - 52) := by positivity
  refine ⟨?_, ?_, Nat.div_mul_le_self _ _, ?_⟩
  · rw [Nat.div_lt_iff_lt_mul unit, ← pow_add]
    exact above.trans_le (Nat.pow_le_pow_right (by norm_num) (by omega))
  · rcases Nat.le_total n.log2 52 with short | long
    · exact .inl (by omega)
    · refine .inr ?_
      rw [Nat.le_div_iff_mul_le unit, ← pow_add, Nat.add_sub_cancel' long]
      exact Nat.log2_self_le (by rintro rfl; simp at long)
  · exact Nat.lt_div_mul_add unit

namespace Brackets

variable (h : Brackets n m e)
include h

theorem isPrecise_lower : IsPrecise (m * 2 ^ e) := isPrecise_mul_two_pow h.small.le e

theorem isPrecise_upper : IsPrecise ((m + 1) * 2 ^ e) := isPrecise_mul_two_pow h.small e

/-- No number of 53 bits lies between the neighbours. -/
theorem le_or_le (precise : IsPrecise k) : k ≤ m * 2 ^ e ∨ m * 2 ^ e + 2 ^ e ≤ k := by
  obtain ⟨q, t, small, rfl⟩ := precise
  by_contra between
  obtain ⟨above, below⟩ := not_or.mp between
  rw [Nat.not_le] at above below
  rw [← Nat.add_one_mul] at below
  rcases Nat.lt_or_ge t e with lt | le
  · -- more than 53 bits would be needed
    obtain ⟨d, rfl⟩ := Nat.exists_eq_add_of_lt lt
    have shape : m * 2 ^ (t + d + 1) = m * 2 ^ d * 2 * 2 ^ t := by ring
    rw [shape] at above
    have large := Nat.lt_of_mul_lt_mul_right above
    have normal := h.fine.resolve_left (by omega)
    have wide := Nat.le_mul_of_pos_right m (show 0 < 2 ^ d by positivity)
    omega
  · obtain ⟨d, rfl⟩ := Nat.exists_eq_add_of_le le
    have shape : q * 2 ^ (e + d) = q * 2 ^ d * 2 ^ e := by ring
    rw [shape] at above below
    have lower := Nat.lt_of_mul_lt_mul_right above
    have upper := Nat.lt_of_mul_lt_mul_right below
    omega

/-- Only a number of more than 53 bits can be halfway between its neighbours. -/
theorem isNormal_of_tie (tie : 2 * (n - m * 2 ^ e) = 2 ^ e) : IsNormal m := by
  refine ⟨h.fine.resolve_left ?_, h.small⟩
  rintro rfl
  omega

theorem exists_even_upper (tie : 2 * (n - m * 2 ^ e) = 2 ^ e) (odd : ¬ Even m) :
    ∃ q t, IsNormal q ∧ Even q ∧ (m + 1) * 2 ^ e = q * 2 ^ t := by
  have even : Even (m + 1) := Nat.even_add_one.mpr odd
  rcases Nat.lt_or_eq_of_le h.small with below | last
  · exact ⟨m + 1, e, ⟨(h.isNormal_of_tie tie).lower.trans (Nat.le_succ m), below⟩, even, rfl⟩
  · have full : m + 1 = 2 ^ 53 := last
    exact ⟨2 ^ 52, e + 1, ⟨by norm_num, by norm_num⟩, by decide, by rw [full]; ring⟩

theorem roundsTo_lower (nearer : 2 * (n - m * 2 ^ e) < 2 ^ e ∨
    2 * (n - m * 2 ^ e) = 2 ^ e ∧ Even m) : RoundsTo n (m * 2 ^ e) := by
  have lower := h.lower
  have upper := h.upper
  refine ⟨h.isPrecise_lower, fun k precise => ?_, fun k precise other same => ?_⟩
  · have outside := h.le_or_le precise
    simp only [Nat.dist]
    omega
  · have outside := h.le_or_le precise
    simp only [Nat.dist] at same
    obtain ⟨tie, even⟩ := nearer.resolve_left (by omega)
    exact ⟨m, e, h.isNormal_of_tie tie, even, rfl⟩

theorem roundsTo_upper (nearer : 2 ^ e < 2 * (n - m * 2 ^ e) ∨
    2 * (n - m * 2 ^ e) = 2 ^ e ∧ ¬ Even m) : RoundsTo n ((m + 1) * 2 ^ e) := by
  have lower := h.lower
  have upper := h.upper
  have next := Nat.add_one_mul m (2 ^ e)
  refine ⟨h.isPrecise_upper, fun k precise => ?_, fun k precise other same => ?_⟩
  · have outside := h.le_or_le precise
    simp only [Nat.dist]
    omega
  · have outside := h.le_or_le precise
    simp only [Nat.dist] at same
    obtain ⟨tie, odd⟩ := nearer.resolve_left (by omega)
    exact h.exists_even_upper tie odd

/-- One of two neighbours is nearer, or has an even significand. -/
theorem not_roundsTo_both (below : RoundsTo n (m * 2 ^ e)) :
    ¬ RoundsTo n ((m + 1) * 2 ^ e) := by
  intro above
  have lower := h.lower
  have upper := h.upper
  have next := Nat.add_one_mul m (2 ^ e)
  have apart : m * 2 ^ e ≠ (m + 1) * 2 ^ e := by omega
  have same := Nat.le_antisymm (below.nearest _ above.precise) (above.nearest _ below.precise)
  have tie : 2 * (n - m * 2 ^ e) = 2 ^ e := by
    simp only [Nat.dist] at same
    omega
  have full := h.isNormal_of_tie tie
  obtain ⟨q, t, normal, even, form⟩ := below.even _ above.precise apart.symm same.symm
  obtain rfl := full.eq_of_mul_two_pow_eq normal form
  have full' : IsNormal (m + 1) := by
    refine ⟨full.lower.trans (Nat.le_succ m), ?_⟩
    have bound := full.upper
    rw [Nat.even_iff] at even
    omega
  obtain ⟨q', t', normal', even', form'⟩ := above.even _ below.precise apart same
  obtain rfl := full'.eq_of_mul_two_pow_eq normal' form'
  exact Nat.even_add_one.mp even' even

end Brackets

theorem RoundsTo.eq_or_eq (h : RoundsTo n r) (brackets : Brackets n m e) :
    r = m * 2 ^ e ∨ r = (m + 1) * 2 ^ e := by
  have lower := brackets.lower
  have upper := brackets.upper
  have next := Nat.add_one_mul m (2 ^ e)
  have outside := brackets.le_or_le h.precise
  have below := h.nearest _ brackets.isPrecise_lower
  have above := h.nearest _ brackets.isPrecise_upper
  simp only [Nat.dist] at below above
  omega

/-- There is one rounding of a number. -/
theorem RoundsTo.unique {r' : Nat} (h : RoundsTo n r) (h' : RoundsTo n r') : r = r' := by
  have brackets := brackets_div n
  rcases h.eq_or_eq brackets with rfl | rfl <;> rcases h'.eq_or_eq brackets with rfl | rfl
  · rfl
  · exact absurd h' (brackets.not_roundsTo_both h)
  · exact absurd h (brackets.not_roundsTo_both h')
  · rfl

/-- The rounding of the program is that to the nearest number, with ties to even. -/
theorem roundsTo_roundToPrecision (n : Nat) : RoundsTo n (roundToPrecision n) := by
  have h := brackets_div n
  have rest : n % 2 ^ (n.log2 - 52) =
      n - n / 2 ^ (n.log2 - 52) * 2 ^ (n.log2 - 52) := by
    rw [Nat.mod_eq_sub_div_mul]
  simp only [roundToPrecision, Nat.pow_eq, rest, ← Nat.even_iff]
  split
  next nearer => exact h.roundsTo_lower nearer
  next further =>
    refine h.roundsTo_upper ?_
    rw [not_or, not_and, Nat.not_lt] at further
    exact (Nat.lt_or_eq_of_le further.1).imp id fun tie => ⟨tie.symm, further.2 tie.symm⟩

/-- A number of 53 bits is its own rounding. -/
theorem roundToPrecision_eq (exact : n ≤ 2 ^ 53) : roundToPrecision n = n := by
  have nearest := (roundsTo_roundToPrecision n).nearest n (isPrecise_of_le exact)
  simp only [Nat.dist] at nearest
  omega

theorem roundsTo_iff : RoundsTo n r ↔ r = roundToPrecision n :=
  ⟨fun h => h.unique (roundsTo_roundToPrecision n), fun eq => eq ▸ roundsTo_roundToPrecision n⟩

end ArrayCalc.Number
