import ArrayCalc.Number.Conversion

/-! Integers become numbers exactly up to the exact limit. -/
namespace ArrayCalc.Number

variable {value : Int}

theorem ofInt?_eq_none_iff : ofInt? value = none ↔ exactLimit < value.natAbs := by
  simp [ofInt?]

theorem natAbs_le_of_ofInt? {number : Float} (h : ofInt? value = some number) :
    value.natAbs ≤ exactLimit := by
  refine Nat.not_lt.mp ?_
  intro large
  simp [ofInt?_eq_none_iff.mpr large] at h

end ArrayCalc.Number
