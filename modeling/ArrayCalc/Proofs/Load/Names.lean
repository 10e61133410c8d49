import ArrayCalc.Proofs.Load.Changes

/-! Loading changes what variables hold, but never which variables there are. -/
namespace ArrayCalc

theorem Record.Changes.namesOf_eq {t t' : Table} (h : Changes t t') (kind : VariableKind) :
    t'.namesOf kind = t.namesOf kind := by
  cases h with
  | none => rfl
  | scalar int set => exact Table.namesOf_setScalar set kind
  | array small allocated ints =>
    rw [Table.namesOf_updateSlots, Table.namesOf_allocate allocated]

theorem Table.namesOf_loadLines (t : Table) (line : Nat) (lines : List (Option String))
    (kind : VariableKind) : (t.loadLines line lines).table.namesOf kind = t.namesOf kind := by
  refine loadLines_invariant (P := fun t' => t'.namesOf kind = t.namesOf kind) ?_ rfl line lines
  intro between t' changes same
  exact (changes.namesOf_eq kind).trans same

/-- Tables that any loads make of a table, one after the other, whether they meet faults or not. -/
inductive Loads (t : Table) : Table → Prop where
  | refl : Loads t t
  | text {t' : Table} (h : Loads t t') (source : String) : Loads t (t'.loadText source).table
  | bytes {t' : Table} (h : Loads t t') (source : List UInt8) :
      Loads t (t'.loadBytes source).table

theorem Loads.namesOf_eq {t t' : Table} (h : Loads t t') (kind : VariableKind) :
    t'.namesOf kind = t.namesOf kind := by
  induction h with
  | refl => rfl
  | text _ source ih => rw [Table.loadText, Table.namesOf_loadLines, ih]
  | bytes _ source ih => rw [Table.loadBytes, Table.namesOf_loadLines, ih]

end ArrayCalc
