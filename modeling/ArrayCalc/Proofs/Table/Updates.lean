import ArrayCalc.Proofs.Table.Names

/-! What the updates of a table do: each changes what one variable holds, and nothing else. -/
namespace ArrayCalc.Table

section Entries

variable {α : Type} {nameOf : α → String} {change : α → α}

theorem nameOf_update (keeps : ∀ entry, nameOf (change entry) = nameOf entry) (name : String)
    (entry : α) : nameOf (if nameOf entry = name then change entry else entry) = nameOf entry := by
  split
  · exact keeps entry
  · rfl

variable (nameOf change)

/-- Changing the entries of one name keeps the names. -/
theorem map_nameOf_update (keeps : ∀ entry, nameOf (change entry) = nameOf entry) (name : String)
    (entries : List α) :
    (entries.map fun entry => if nameOf entry = name then change entry else entry).map nameOf =
      entries.map nameOf := by
  rw [List.map_map]
  refine List.map_congr_left ?_
  intro entry _
  exact nameOf_update keeps name entry

variable {nameOf} in
/-- What is found under a name is changed along with its entry. -/
theorem find?_map_of_nameOf {f : α → α} (keeps : ∀ entry, nameOf (f entry) = nameOf entry)
    (name : String) (entries : List α) :
    (entries.map f).find? (fun entry => nameOf entry = name) =
      (entries.find? fun entry => nameOf entry = name).map f := by
  have kept : (fun entry => decide (nameOf entry = name)) ∘ f =
      fun entry => decide (nameOf entry = name) := by
    funext entry
    rw [Function.comp_apply, keeps]
  rw [List.find?_map, kept]

/-- Changing the entries of one name changes what is found under it only. -/
theorem find?_update (keeps : ∀ entry, nameOf (change entry) = nameOf entry) (name other : String)
    (entries : List α) :
    (entries.map fun entry => if nameOf entry = name then change entry else entry).find?
        (fun entry => nameOf entry = other) =
      (entries.find? fun entry => nameOf entry = other).map fun entry =>
        if other = name then change entry else entry := by
  rw [find?_map_of_nameOf (nameOf_update keeps name)]
  refine Option.map_congr ?_
  intro entry found
  have named : nameOf entry = other := by simpa using List.find?_some found
  rw [named]

variable {nameOf} in
theorem map_update_of_notMem {name : String} {entries : List α}
    (fresh : name ∉ entries.map nameOf) :
    (entries.map fun entry => if nameOf entry = name then change entry else entry) = entries := by
  refine (List.map_congr_left ?_).trans (List.map_id entries)
  intro entry mem
  have apart : nameOf entry ≠ name := by
    rintro rfl
    exact fresh (List.mem_map_of_mem mem)
  rw [if_neg apart, id]

end Entries

variable {t t' : Table} {name : String}

theorem setScalar_eq_ok {value : Int} (h : t.setScalar name value = .ok t') :
    name ∈ t.namesOf .scalar ∧
      t' = { t with scalars := t.scalars.map fun s =>
        if s.name = name then { s with value } else s } := by
  simp only [setScalar] at h
  split at h
  · rename_i known
    exact ⟨isSome_scalar?_iff.mp known, (Except.ok.inj h).symm⟩
  · simp at h

theorem namesOf_setScalar {value : Int} (h : t.setScalar name value = .ok t')
    (kind : VariableKind) : t'.namesOf kind = t.namesOf kind := by
  obtain ⟨-, rfl⟩ := setScalar_eq_ok h
  cases kind with
  | scalar => exact map_nameOf_update Scalar.name ({ · with value }) (fun _ => rfl) name t.scalars
  | array => rfl

theorem scalarValue?_setScalar {value : Int} (h : t.setScalar name value = .ok t')
    (other : String) :
    t'.scalarValue? other = if other = name then some value else t.scalarValue? other := by
  obtain ⟨known, rfl⟩ := setScalar_eq_ok h
  have read := find?_update Scalar.name ({ · with value }) (fun _ => rfl) name other t.scalars
  rw [scalarValue?, scalar?, read, ← scalar?, Option.map_map]
  split
  · rename_i same
    subst same
    obtain ⟨s, found⟩ := Option.isSome_iff_exists.mp (isSome_scalar?_iff.mpr known)
    simp [found]
  · rfl

theorem arrays_setScalar {value : Int} (h : t.setScalar name value = .ok t') :
    t'.arrays = t.arrays := by
  obtain ⟨-, rfl⟩ := setScalar_eq_ok h
  rfl

theorem setScalar_of_mem (known : name ∈ t.namesOf .scalar) (value : Int) :
    ∃ t', t.setScalar name value = .ok t' :=
  ⟨_, if_pos (isSome_scalar?_iff.mpr known)⟩

theorem setScalar_of_notMem (fresh : name ∉ t.namesOf .scalar) (value : Int) :
    t.setScalar name value = .error .unknownName := by
  rw [setScalar, if_neg (isSome_scalar?_iff.not.mpr fresh)]

theorem namesOf_updateSlots (t : Table) (name : String) (change : Array Int → Array Int)
    (kind : VariableKind) : (t.updateSlots name change).namesOf kind = t.namesOf kind := by
  cases kind with
  | scalar => rfl
  | array =>
    exact map_nameOf_update ArrayVariable.name (fun a => { a with values := change a.values })
      (fun _ => rfl) name t.arrays

theorem array?_updateSlots (t : Table) (name : String) (change : Array Int → Array Int)
    (other : String) :
    (t.updateSlots name change).array? other =
      (t.array? other).map fun a =>
        if other = name then { a with values := change a.values } else a :=
  find?_update ArrayVariable.name (fun a => { a with values := change a.values }) (fun _ => rfl)
    name other t.arrays

theorem updateSlots_of_notMem (fresh : name ∉ t.namesOf .array)
    (change : Array Int → Array Int) : t.updateSlots name change = t := by
  have same : (t.arrays.map fun a =>
      if a.name = name then { a with values := change a.values } else a) = t.arrays :=
    map_update_of_notMem _ fresh
  rw [updateSlots, same]

theorem updateSlots_updateSlots (t : Table) (name : String) (f g : Array Int → Array Int) :
    (t.updateSlots name f).updateSlots name g = t.updateSlots name fun values => g (f values) := by
  simp only [updateSlots, List.map_map, mk.injEq, true_and]
  refine List.map_congr_left ?_
  intro a _
  by_cases named : a.name = name <;> simp [named]

theorem allocate_of_notMem (fresh : name ∉ t.namesOf .array) (size : Nat) :
    t.allocate name size = .error .unknownName := by
  have none : t.array? name = none :=
    Option.not_isSome_iff_eq_none.mp (isSome_array?_iff.not.mpr fresh)
  simp [allocate, none]

theorem allocate_of_mem (known : name ∈ t.namesOf .array) {size : Nat} (small : size < storageLimit) :
    t.allocate name size = .ok (t.updateSlots name fun _ => Array.replicate size 0) := by
  have found : (t.array? name).isNone = false := by
    simp [Option.isNone_eq_false_iff, isSome_array?_iff, known]
  simp [allocate, found, Nat.not_le.mpr small]

theorem allocate_eq_ok {size : Nat} (h : t.allocate name size = .ok t') :
    t' = t.updateSlots name fun _ => Array.replicate size 0 := by
  simp only [allocate] at h
  split at h
  · simp at h
  · split at h
    · simp at h
    · exact (Except.ok.inj h).symm

theorem namesOf_allocate {size : Nat} (h : t.allocate name size = .ok t') (kind : VariableKind) :
    t'.namesOf kind = t.namesOf kind := by
  obtain rfl := allocate_eq_ok h
  exact namesOf_updateSlots t name _ kind

end ArrayCalc.Table
