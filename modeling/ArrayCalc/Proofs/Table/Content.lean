import Mathlib.Data.List.Forall2
import ArrayCalc.Proofs.Table.Updates

/-! What variables hold. To tell a variable what to hold changes no other entry of its table, and of
all that it is told only the last counts, whatever it held before. -/
namespace ArrayCalc

/-- What a variable holds: an integer, or slots. -/
inductive Content where
  | scalar (value : Int)
  | array (slots : Array Int)
deriving DecidableEq, Repr

def Content.kind : Content → VariableKind
  | scalar _ => .scalar
  | array _ => .array

/-- A scalar that is told what to hold. Slots are not for it. -/
def Scalar.take (s : Scalar) : Content → Scalar
  | .scalar value => { s with value }
  | .array _ => s

/-- An array that is told what to hold. An integer is not for it. -/
def ArrayVariable.take (a : ArrayVariable) : Content → ArrayVariable
  | .scalar _ => a
  | .array slots => { a with values := slots }

def contentsTold (kind : VariableKind) (name : String) (told : List (String × Content)) :
    List Content :=
  (told.filter fun entry => entry.1 = name ∧ entry.2.kind = kind).map Prod.snd

section ContentsTold

variable {kind : VariableKind} {name : String} {told : List (String × Content)} {content : Content}

theorem mem_contentsTold : content ∈ contentsTold kind name told ↔
    (name, content) ∈ told ∧ content.kind = kind := by
  simp only [contentsTold, List.mem_map, List.mem_filter, decide_eq_true_eq]
  constructor
  · rintro ⟨⟨_, _⟩, ⟨mem, rfl, same⟩, rfl⟩
    exact ⟨mem, same⟩
  · rintro ⟨mem, same⟩
    exact ⟨(name, content), ⟨mem, rfl, same⟩, rfl⟩

theorem contentsTold_append (kind : VariableKind) (name : String)
    (first later : List (String × Content)) :
    contentsTold kind name (first ++ later) =
      contentsTold kind name first ++ contentsTold kind name later := by
  simp [contentsTold]

theorem contentsTold_eq_nil (none : ∀ content, (name, content) ∈ told → content.kind ≠ kind) :
    contentsTold kind name told = [] := by
  refine List.eq_nil_iff_forall_not_mem.mpr ?_
  intro content mem
  obtain ⟨told, suits⟩ := mem_contentsTold.mp mem
  exact none content told suits

theorem contentsTold_singleton (suits : content.kind = kind) :
    contentsTold kind name [(name, content)] = [content] := by
  simp [contentsTold, suits]

/-- What an entry becomes that keeps the last that is told of its name and for its kind. -/
def takeLast {α : Type} (nameOf : α → String) (take : α → Content → α) (kind : VariableKind)
    (told : List (String × Content)) (a : α) : α :=
  (contentsTold kind (nameOf a) told).getLast?.elim a (take a)

variable {α : Type} {nameOf : α → String} {take : α → Content → α}

theorem nameOf_takeLast (keeps : ∀ a content, nameOf (take a content) = nameOf a) (a : α) :
    nameOf (takeLast nameOf take kind told a) = nameOf a := by
  unfold takeLast
  cases (contentsTold kind (nameOf a) told).getLast? with
  | none => rfl
  | some last => exact keeps a last

/-- Entries that are told what to hold one after the other keep the last that is for their kind. -/
theorem foldl_take (keeps : ∀ a content, nameOf (take a content) = nameOf a)
    (other : ∀ a content, content.kind ≠ kind → take a content = a)
    (overwrites : ∀ a content content', content'.kind = kind →
      take (take a content) content' = take a content')
    (told : List (String × Content)) (entries : List α) :
    told.foldl (fun entries entry =>
        entries.map fun a => if nameOf a = entry.1 then take a entry.2 else a) entries =
      entries.map (takeLast nameOf take kind told) := by
  -- What is told last decides, so the induction is on the end of what is told.
  induction told using List.reverseRecOn with
  | nil => exact (List.map_id entries).symm
  | append_singleton told entry ih =>
    obtain ⟨name, content⟩ := entry
    rw [List.foldl_append, ih, List.foldl_cons, List.foldl_nil, List.map_map]
    refine List.map_congr_left ?_
    intro a _
    rw [Function.comp_apply, nameOf_takeLast keeps, takeLast, takeLast, contentsTold_append]
    by_cases same : nameOf a = name
    · by_cases suits : content.kind = kind
      · subst same
        rw [if_pos rfl, contentsTold_singleton suits, List.getLast?_concat, Option.elim_some]
        cases (contentsTold kind (nameOf a) told).getLast? with
        | none => rfl
        | some last => exact overwrites a last content suits
      · have told' : contentsTold kind (nameOf a) [(name, content)] = [] := by
          simp [contentsTold, suits]
        rw [if_pos same, told', List.append_nil, other _ content suits]
    · have told' : contentsTold kind (nameOf a) [(name, content)] = [] := by
        simp [contentsTold, Ne.symm same]
      rw [if_neg same, told', List.append_nil]

end ContentsTold

namespace Table

def content? (t : Table) (name : String) : VariableKind → Option Content
  | .scalar => (t.scalar? name).map fun s => .scalar s.value
  | .array => (t.array? name).map fun a => .array a.values

def hold (t : Table) (name : String) (content : Content) : Table where
  scalars := t.scalars.map fun s => if s.name = name then s.take content else s
  arrays := t.arrays.map fun a => if a.name = name then a.take content else a

def holdAll (t : Table) (told : List (String × Content)) : Table :=
  told.foldl (fun t entry => t.hold entry.1 entry.2) t

variable {t t' : Table} {told told' : List (String × Content)} {name : String}

theorem content?_eq_none_iff {kind : VariableKind} :
    t.content? name kind = none ↔ name ∉ t.namesOf kind := by
  cases kind with
  | scalar => rw [content?, Option.map_eq_none_iff, ← Option.not_isSome_iff_eq_none, isSome_scalar?_iff]
  | array => rw [content?, Option.map_eq_none_iff, array?_eq_none_iff]

theorem hold_scalar (t : Table) (name : String) (value : Int) :
    t.hold name (.scalar value) =
      { t with scalars := t.scalars.map fun s => if s.name = name then { s with value } else s } := by
  simp [hold, Scalar.take, ArrayVariable.take]

theorem hold_array (t : Table) (name : String) (slots : Array Int) :
    t.hold name (.array slots) = t.updateSlots name fun _ => slots := by
  simp [hold, updateSlots, Scalar.take, ArrayVariable.take]

theorem holdAll_append (t : Table) (first later : List (String × Content)) :
    t.holdAll (first ++ later) = (t.holdAll first).holdAll later :=
  List.foldl_append

theorem name_take_scalar (s : Scalar) (content : Content) : (s.take content).name = s.name := by
  cases content <;> rfl

theorem name_take_array (a : ArrayVariable) (content : Content) : (a.take content).name = a.name := by
  cases content <;> rfl

/-- A scalar holds the last integer that it is told. -/
theorem scalars_holdAll (t : Table) (told : List (String × Content)) :
    (t.holdAll told).scalars =
      t.scalars.map (takeLast Scalar.name Scalar.take .scalar told) := by
  have fold : told.foldl (fun scalars entry =>
        scalars.map fun s => if s.name = entry.1 then s.take entry.2 else s) t.scalars =
      (t.holdAll told).scalars := List.foldl_hom Table.scalars fun _ _ => rfl
  rw [← fold]
  refine foldl_take name_take_scalar ?_ ?_ told t.scalars
  · rintro s (value | slots) different
    · exact absurd rfl different
    · rfl
  · rintro s (value | slots) (value' | slots') same
    all_goals first | rfl | exact absurd same nofun

/-- An array holds the last slots that it is told. -/
theorem arrays_holdAll (t : Table) (told : List (String × Content)) :
    (t.holdAll told).arrays =
      t.arrays.map (takeLast ArrayVariable.name ArrayVariable.take .array told) := by
  have fold : told.foldl (fun arrays entry =>
        arrays.map fun a => if a.name = entry.1 then a.take entry.2 else a) t.arrays =
      (t.holdAll told).arrays := List.foldl_hom Table.arrays fun _ _ => rfl
  rw [← fold]
  refine foldl_take name_take_array ?_ ?_ told t.arrays
  · rintro a (value | slots) different
    · rfl
    · exact absurd rfl different
  · rintro a (value | slots) (value' | slots') same
    all_goals first | rfl | exact absurd same nofun

theorem namesOf_hold (t : Table) (name : String) (content : Content) :
    (t.hold name content).namesOf = t.namesOf := by
  funext kind
  cases kind with
  | scalar =>
    exact map_nameOf_update Scalar.name (·.take content) (name_take_scalar · content) name t.scalars
  | array =>
    exact map_nameOf_update ArrayVariable.name (·.take content) (name_take_array · content) name
      t.arrays

theorem namesOf_holdAll (t : Table) (told : List (String × Content)) :
    (t.holdAll told).namesOf = t.namesOf := by
  induction told generalizing t with
  | nil => rfl
  | cons entry told ih => exact (ih (t.hold entry.1 entry.2)).trans (namesOf_hold t _ _)

/-- Only what each variable is told last counts. -/
theorem holdAll_congr
    (same : ∀ kind, ∀ name ∈ t.namesOf kind,
      (contentsTold kind name told).getLast? = (contentsTold kind name told').getLast?) :
    t.holdAll told = t.holdAll told' := by
  have scalars : (t.holdAll told).scalars = (t.holdAll told').scalars := by
    rw [scalars_holdAll, scalars_holdAll]
    refine List.map_congr_left ?_
    intro s mem
    rw [takeLast, takeLast, same .scalar s.name (List.mem_map_of_mem mem)]
  have arrays : (t.holdAll told).arrays = (t.holdAll told').arrays := by
    rw [arrays_holdAll, arrays_holdAll]
    refine List.map_congr_left ?_
    intro a mem
    rw [takeLast, takeLast, same .array a.name (List.mem_map_of_mem mem)]
  calc t.holdAll told
      = ⟨(t.holdAll told).scalars, (t.holdAll told).arrays⟩ := rfl
    _ = ⟨(t.holdAll told').scalars, (t.holdAll told').arrays⟩ := by rw [scalars, arrays]
    _ = t.holdAll told' := rfl

/-- A variable holds the last that it is told, or what it held if it is told nothing. -/
theorem content?_holdAll (t : Table) (told : List (String × Content)) (name : String)
    (kind : VariableKind) :
    (t.holdAll told).content? name kind =
      (t.content? name kind).map fun content => (contentsTold kind name told).getLast?.getD content := by
  have suits : ∀ content ∈ (contentsTold kind name told).getLast?, content.kind = kind := by
    intro content last
    exact (mem_contentsTold.mp (List.mem_of_getLast? last)).2
  cases kind with
  | scalar =>
    rw [content?, scalar?, scalars_holdAll, find?_map_of_nameOf (nameOf_takeLast name_take_scalar), ← scalar?,
      Option.map_map, content?, Option.map_map]
    refine Option.map_congr ?_
    intro s found
    obtain rfl : s.name = name := by simpa using List.find?_some found
    simp only [Function.comp_apply, takeLast]
    cases last : (contentsTold .scalar s.name told).getLast? with
    | none => rfl
    | some content =>
      obtain value | slots := content
      · rfl
      · cases suits _ last
  | array =>
    rw [content?, array?, arrays_holdAll, find?_map_of_nameOf (nameOf_takeLast name_take_array), ← array?,
      Option.map_map, content?, Option.map_map]
    refine Option.map_congr ?_
    intro a found
    obtain rfl : a.name = name := by simpa using List.find?_some found
    simp only [Function.comp_apply, takeLast]
    cases last : (contentsTold .array a.name told).getLast? with
    | none => rfl
    | some content =>
      obtain value | slots := content
      · cases suits _ last
      · rfl

theorem content?_holdAll_of_told {kind : VariableKind} {content : Content}
    (mem : name ∈ t.namesOf kind) (last : (contentsTold kind name told).getLast? = some content) :
    (t.holdAll told).content? name kind = some content := by
  obtain ⟨held, found⟩ := Option.ne_none_iff_exists'.mp (content?_eq_none_iff.not_left.mpr mem)
  rw [content?_holdAll, found, last]
  rfl

/-- Two tables with the same variables in the same order, which hold the same but for one name. -/
structure AgreeBut (name : String) (t t' : Table) : Prop where
  scalars : List.Forall₂ (fun s s' => s.name = s'.name ∧ (s.name ≠ name → s = s'))
    t.scalars t'.scalars
  arrays : List.Forall₂ (fun a a' => a.name = a'.name ∧ (a.name ≠ name → a = a'))
    t.arrays t'.arrays

theorem agreeBut_holdAll (t : Table) (only : ∀ entry ∈ told, entry.1 = name) :
    t.AgreeBut name (t.holdAll told) := by
  have others {other : String} (apart : other ≠ name) (kind : VariableKind) :
      contentsTold kind other told = [] :=
    contentsTold_eq_nil fun _ mem => absurd (only _ mem) apart
  constructor
  · rw [scalars_holdAll, List.forall₂_map_right_iff, List.forall₂_same]
    intro s _
    refine ⟨(nameOf_takeLast name_take_scalar s).symm, ?_⟩
    intro apart
    rw [takeLast, others apart]
    rfl
  · rw [arrays_holdAll, List.forall₂_map_right_iff, List.forall₂_same]
    intro a _
    refine ⟨(nameOf_takeLast name_take_array a).symm, ?_⟩
    intro apart
    rw [takeLast, others apart]
    rfl

end Table

end ArrayCalc
