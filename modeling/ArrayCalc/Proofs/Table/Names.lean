import Mathlib.Data.List.Induction
import ArrayCalc.Table.Discovery

/-! The names that a table knows. Discovery registers the names of a text by their first uses. -/
namespace ArrayCalc

namespace Table

variable {t t' : Table} {name : String} {kind : VariableKind}

def namesOf (t : Table) : VariableKind → List String
  | .scalar => t.scalars.map Scalar.name
  | .array => t.arrays.map ArrayVariable.name

theorem isSome_scalar?_iff : (t.scalar? name).isSome = true ↔ name ∈ t.namesOf .scalar := by
  simp [scalar?, namesOf]

theorem isSome_array?_iff : (t.array? name).isSome = true ↔ name ∈ t.namesOf .array := by
  simp [array?, namesOf]

theorem scalarValue?_eq_none_iff : t.scalarValue? name = none ↔ name ∉ t.namesOf .scalar := by
  rw [← isSome_scalar?_iff, scalarValue?, Option.map_eq_none_iff, Option.not_isSome_iff_eq_none]

theorem array?_eq_none_iff : t.array? name = none ↔ name ∉ t.namesOf .array := by
  rw [← isSome_array?_iff, Option.not_isSome_iff_eq_none]

theorem contains_iff : t.contains name = true ↔ ∃ kind, name ∈ t.namesOf kind := by
  simp only [contains, kindOf?]
  constructor
  · intro known
    split at known
    · rename_i scalar
      exact ⟨.scalar, isSome_scalar?_iff.mp scalar⟩
    · split at known
      · rename_i array
        exact ⟨.array, isSome_array?_iff.mp array⟩
      · simp at known
  · rintro ⟨kind, mem⟩
    cases kind with
    | scalar => simp [isSome_scalar?_iff.mpr mem]
    | array =>
      rw [isSome_array?_iff.mpr mem]
      split <;> rfl

theorem register_of_contains (known : t.contains name = true) : t.register (name, kind) = t := by
  simp [register, add, known]

theorem register_of_not_contains (fresh : t.contains name = false) :
    t.register (name, kind) =
      match kind with
      | .scalar => { t with scalars := t.scalars ++ [{ name }] }
      | .array => { t with arrays := t.arrays ++ [{ name }] } := by
  cases kind <;> simp [register, add, fresh]

theorem contains_iff_mem_names : t.contains name = true ↔ name ∈ t.names := by
  rw [contains_iff, names, List.mem_append]
  constructor
  · rintro ⟨kind, mem⟩
    cases kind with
    | scalar => exact .inl mem
    | array => exact .inr mem
  · rintro (mem | mem)
    · exact ⟨.scalar, mem⟩
    · exact ⟨.array, mem⟩

/-- A name is registered once, and in one namespace only. -/
theorem nodup_names_register (h : t.names.Nodup) (use : String × VariableKind) :
    (t.register use).names.Nodup := by
  obtain ⟨name, kind⟩ := use
  cases known : t.contains name with
  | true => rwa [register_of_contains known]
  | false =>
    have fresh : name ∉ t.names := by
      rw [← contains_iff_mem_names, known]
      exact Bool.false_ne_true
    have moved : (t.register (name, kind)).names.Perm (name :: t.names) := by
      rw [register_of_not_contains known]
      cases kind with
      | scalar => simp [names, List.perm_middle]
      | array => simpa [names] using List.perm_append_singleton name t.names
    exact moved.nodup_iff.mpr (List.nodup_cons.mpr ⟨fresh, h⟩)

theorem nodup_names_foldl_register (h : t.names.Nodup) (uses : List (String × VariableKind)) :
    (uses.foldl register t).names.Nodup := by
  induction uses generalizing t with
  | nil => exact h
  | cons use uses ih => exact ih (nodup_names_register h use)

end Table

theorem lookup_of_mem {α : Type} {l : List (String × α)} (nodup : (l.map Prod.fst).Nodup)
    {name : String} {a : α} (mem : (name, a) ∈ l) : l.lookup name = some a := by
  induction l with
  | nil => simp at mem
  | cons entry l ih =>
    obtain ⟨other, b⟩ := entry
    simp only [List.map_cons, List.nodup_cons] at nodup
    rcases List.mem_cons.mp mem with same | later
    · obtain ⟨rfl, rfl⟩ := Prod.mk.inj same
      exact List.lookup_cons_self
    · have apart : name ≠ other := fun same => nodup.1 (same ▸ List.mem_map_of_mem later)
      rw [List.lookup_cons, beq_false_of_ne apart]
      exact ih nodup.2 later

theorem mem_of_lookup {α : Type} {l : List (String × α)} {name : String} {a : α}
    (h : l.lookup name = some a) : (name, a) ∈ l := by
  obtain ⟨before, after, split, -⟩ := List.lookup_eq_some_iff.mp h
  simp [split]

/-- The names that are used first as a kind, in the order of their first uses. -/
def firstNames (uses : List (String × VariableKind)) (kind : VariableKind) : List String :=
  (uses.map Prod.fst).eraseDups.filter fun name => uses.lookup name = some kind

/-- A name that is used both as a scalar and as an array. -/
def Mixed (uses : List (String × VariableKind)) (name : String) : Prop :=
  (name, .scalar) ∈ uses ∧ (name, .array) ∈ uses

section FirstNames

variable {uses : List (String × VariableKind)} {name : String} {kind used : VariableKind}

theorem isSome_lookup_iff : (uses.lookup name).isSome = true ↔ name ∈ uses.map Prod.fst := by
  simp [List.lookup_isSome_iff]

theorem mem_firstNames : name ∈ firstNames uses kind ↔ uses.lookup name = some kind := by
  simp only [firstNames, List.mem_filter, List.mem_eraseDups, decide_eq_true_eq,
    and_iff_right_iff_imp]
  intro first
  exact isSome_lookup_iff.mp (by simp [first])

theorem mem_firstNames_of_mem (pure : ∀ name, ¬ Mixed uses name) (mem : (name, kind) ∈ uses) :
    name ∈ firstNames uses kind := by
  obtain ⟨used, first⟩ := Option.isSome_iff_exists.mp
    (isSome_lookup_iff.mpr (List.mem_map_of_mem mem))
  have mem' := mem_of_lookup first
  have same : used = kind := by
    by_contra other
    cases kind <;> cases used
    all_goals first | exact other rfl | exact pure name ⟨by assumption, by assumption⟩
  rw [mem_firstNames, first, same]

theorem lookup_append_of_mem (later : List (String × VariableKind))
    (mem : name ∈ uses.map Prod.fst) : (uses ++ later).lookup name = uses.lookup name := by
  obtain ⟨used, first⟩ := Option.isSome_iff_exists.mp (isSome_lookup_iff.mpr mem)
  simp [List.lookup_append, first]

theorem filter_lookup_append (later : List (String × VariableKind)) :
    ((uses.map Prod.fst).eraseDups.filter fun name => (uses ++ later).lookup name = some kind) =
      firstNames uses kind := by
  refine List.filter_congr ?_
  intro name mem
  rw [lookup_append_of_mem later (List.mem_eraseDups.mp mem)]

theorem firstNames_append_of_mem (mem : name ∈ uses.map Prod.fst) :
    firstNames (uses ++ [(name, used)]) kind = firstNames uses kind := by
  have none : [name].removeAll (uses.map Prod.fst) = [] := by
    simpa [List.removeAll] using mem
  rw [firstNames, List.map_append, List.eraseDups_append, List.map_singleton, none,
    List.eraseDups_nil, List.append_nil, filter_lookup_append]

theorem firstNames_append_of_notMem (fresh : name ∉ uses.map Prod.fst) :
    firstNames (uses ++ [(name, used)]) kind =
      firstNames uses kind ++ if used = kind then [name] else [] := by
  have unread : uses.lookup name = none := by
    rw [← Option.not_isSome_iff_eq_none, isSome_lookup_iff]
    exact fresh
  have single : [name].removeAll (uses.map Prod.fst) = [name] := by
    simpa [List.removeAll] using fresh
  have read : (uses ++ [(name, used)]).lookup name = some used := by
    simp [List.lookup_append, unread]
  rw [firstNames, List.map_append, List.eraseDups_append, List.map_singleton, single,
    List.filter_append, filter_lookup_append]
  by_cases same : used = kind
  · simp [List.eraseDups_cons, ← same, read]
  · simp [List.eraseDups_cons, read, same]

end FirstNames

/-- Registering uses one after the other keeps the first use of each name. -/
theorem foldl_register (uses : List (String × VariableKind)) :
    uses.foldl Table.register {} =
      { scalars := (firstNames uses .scalar).map fun name => { name }
        arrays := (firstNames uses .array).map fun name => { name } } := by
  induction uses using List.reverseRecOn with
  | nil => rfl
  | append_singleton uses use ih =>
    obtain ⟨name, kind⟩ := use
    have known : (uses.foldl Table.register {}).contains name = true ↔
        name ∈ uses.map Prod.fst := by
      rw [Table.contains_iff, ← isSome_lookup_iff, Option.isSome_iff_exists]
      refine exists_congr ?_
      intro kind
      rw [← mem_firstNames, ih]
      cases kind <;> simp [Table.namesOf, Function.comp_def]
    rw [List.foldl_append, List.foldl_cons, List.foldl_nil]
    by_cases mem : name ∈ uses.map Prod.fst
    · rw [Table.register_of_contains (known.mpr mem), ih]
      simp [firstNames_append_of_mem mem]
    · have fresh := Bool.not_eq_true _ ▸ known.not.mpr mem
      rw [Table.register_of_not_contains fresh, ih]
      cases kind <;> simp [firstNames_append_of_notMem mem]

theorem namesOf_foldl_register (uses : List (String × VariableKind)) (kind : VariableKind) :
    (uses.foldl Table.register {}).namesOf kind = firstNames uses kind := by
  rw [foldl_register]
  cases kind <;> simp [Table.namesOf, Function.comp_def]

end ArrayCalc
