import ArrayCalc.Load.Source
import ArrayCalc.Proofs.Load.Rendering
import ArrayCalc.Proofs.Table.Updates

/-! What a record can do to a table, whether it ends in a fault or not. What every such change
preserves, a load preserves. -/
namespace ArrayCalc

theorem isInt32_of_int32? {word : String} {value : Int} (h : Text.int32? word = some value) :
    IsInt32 value :=
  of_decide_eq_true (Option.filter_eq_some_iff.mp h).2

theorem lt_of_size? {word : String} {size : Nat} (h : Text.size? word = some size) :
    size < Text.int32Limit := by
  obtain ⟨value, found, rfl⟩ := Option.map_eq_some_iff.mp h
  obtain ⟨read, positive⟩ := Option.filter_eq_some_iff.mp found
  have upper := (isInt32_of_int32? read).2
  have lower : 0 ≤ value := by simpa using positive
  omega

namespace Record

/-- The tables that a record can make of a table: the same one, one with a scalar set, or one with
an array cleared and filled as far as its pairs were read. -/
inductive Changes (t : Table) : Table → Prop where
  | none : Changes t t
  | scalar {t' : Table} {name : String} {value : Int} (int : IsInt32 value)
      (set : t.setScalar name value = .ok t') : Changes t t'
  | array {cleared : Table} {name : String} {size : Nat} {changes : List (Nat × Int)}
      (small : size < Text.int32Limit) (allocated : t.allocate name size = .ok cleared)
      (ints : ∀ change ∈ changes, IsInt32 change.2) :
      Changes t (cleared.updateSlots name (write · changes))

theorem isInt32_of_mem_assignments (name : String) (size line : Nat) (numbers : List String) :
    ∀ change ∈ (assignments name size line numbers).1, IsInt32 change.2 := by
  fun_induction assignments name size line numbers with
  | case1 | case2 | case3 | case4 | case5 => simp
  | case6 indexWord valueWord rest index read value read' slot inside others fault rest' ih =>
    rw [rest'] at ih
    exact List.forall_mem_cons.mpr ⟨isInt32_of_int32? read', ih⟩

variable (t : Table) (line : Nat) (name : String)

theorem changes_applyScalar (valueWord : String) :
    Changes t (applyScalar t line name valueWord).table := by
  unfold applyScalar
  split
  · exact .none
  · rename_i value read
    split
    · rename_i changed set
      exact .scalar (isInt32_of_int32? read) set
    · exact .none

theorem changes_applyArray (sizeWord : String) (pairs : List String) :
    Changes t (applyArray t line name sizeWord pairs).table := by
  unfold applyArray
  split
  · exact .none
  · rename_i size read
    split
    · rename_i cleared allocated
      have ints := isInt32_of_mem_assignments name size line (numbers pairs)
      exact .array (lt_of_size? read) allocated ints
    · exact .none
    · exact .none

theorem changes_apply (words : List String) : Changes t (apply t line words).table := by
  unfold apply
  split
  · exact .none
  · split
    · exact .none
    · split
      · exact .none
      · exact changes_applyScalar t line _ _
      · exact changes_applyArray t line _ _ _

end Record

/-- What records preserve holds after a load, wherever it stops. -/
theorem Table.loadLines_invariant {P : Table → Prop}
    (preserves : ∀ {t t'}, Record.Changes t t' → P t → P t') {t : Table} (initial : P t)
    (line : Nat) (lines : List (Option String)) : P (t.loadLines line lines).table := by
  induction lines generalizing t line with
  | nil => exact initial
  | cons text rest ih =>
    cases text with
    | none => exact initial
    | some text =>
      have first := preserves (Record.changes_apply t line (Record.words text)) initial
      simp only [loadLines]
      split
      · exact first
      · exact ih first (line + 1)

end ArrayCalc
