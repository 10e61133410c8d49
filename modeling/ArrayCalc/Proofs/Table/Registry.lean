import Mathlib.Logic.Function.Basic
import ArrayCalc.Proofs.Table.Content

/-! One map from names to contents that keeps the order in which the names arrived. A table shows
the scalars and the arrays of such a map apart, and each of its updates and questions is that of the
map. -/
namespace ArrayCalc

namespace Content

def initial : VariableKind → Content
  | .scalar => scalar 0
  | .array => array #[]

def scalar? (name : String) : Content → Option Scalar
  | scalar value => some { name, value }
  | array _ => none

def array? (name : String) : Content → Option ArrayVariable
  | scalar _ => none
  | array slots => some { name, values := slots }

/-- What a variable holds that is told what to hold. Only its own kind is for it. -/
def take (held told : Content) : Content := if told.kind = held.kind then told else held

variable {name : String}

theorem name_of_scalar? {content : Content} {s : Scalar} (h : content.scalar? name = some s) :
    s.name = name := by
  cases content with
  | scalar value => obtain rfl := Option.some.inj h; rfl
  | array slots => simp [scalar?] at h

theorem name_of_array? {content : Content} {a : ArrayVariable} (h : content.array? name = some a) :
    a.name = name := by
  cases content with
  | scalar value => simp [array?] at h
  | array slots => obtain rfl := Option.some.inj h; rfl

theorem kind_take (held told : Content) : (held.take told).kind = held.kind := by
  unfold take
  split
  · assumption
  · rfl

theorem scalar?_take (held told : Content) :
    (held.take told).scalar? name = (held.scalar? name).map (·.take told) := by
  cases held <;> cases told <;> rfl

theorem array?_take (held told : Content) :
    (held.take told).array? name = (held.array? name).map (·.take told) := by
  cases held <;> cases told <;> rfl

end Content

/-- What each name holds, if it is known, and the order in which the known names arrived. -/
structure Registry where
  order : List String
  held : String → Option Content
  nodup : order.Nodup
  mem_order_iff : ∀ name, name ∈ order ↔ (held name).isSome = true

namespace Registry

def empty : Registry where
  order := []
  held := fun _ => none
  nodup := .nil
  mem_order_iff := by simp

variable (r : Registry)

/-- A new name comes last; it holds zero, or no slots. -/
def add (kind : VariableKind) (name : String) : Except Refusal Registry :=
  if fresh : r.held name = none then
    .ok {
      order := r.order ++ [name]
      held := Function.update r.held name (some (.initial kind))
      nodup := by
        have unlisted : name ∉ r.order := by simp [r.mem_order_iff, fresh]
        exact (List.perm_append_singleton name r.order).nodup_iff.mpr
          (List.nodup_cons.mpr ⟨unlisted, r.nodup⟩)
      mem_order_iff := by
        intro other
        by_cases same : other = name
        · simp [same]
        · simp [same, r.mem_order_iff] }
  else .error .nameTaken

def hold (name : String) (content : Content) : Registry where
  order := r.order
  held := Function.update r.held name ((r.held name).map (·.take content))
  nodup := r.nodup
  mem_order_iff := by
    intro other
    by_cases same : other = name
    · simp [same, r.mem_order_iff]
    · simp [same, r.mem_order_iff]

def holdAll (told : List (String × Content)) : Registry :=
  told.foldl (fun r entry => r.hold entry.1 entry.2) r

def setScalar (name : String) (value : Int) : Except Refusal Registry :=
  match r.held name with
  | some (.scalar _) => .ok (r.hold name (.scalar value))
  | _ => .error .unknownName

def allocate (name : String) (size : Nat) : Except Refusal Registry :=
  match r.held name with
  | some (.array _) =>
    if Table.storageLimit ≤ size then .error .noStorage
    else .ok (r.hold name (.array (Array.replicate size 0)))
  | _ => .error .unknownName

def setSlot (name : String) (index : Nat) (value : Int) : Except Refusal Registry :=
  match r.held name with
  | some (.array slots) =>
    if index < slots.size then .ok (r.hold name (.array (slots.setIfInBounds index value)))
    else .error .noSuchSlot
  | _ => .error .unknownName

def contains (name : String) : Bool := (r.held name).isSome

def kindOf? (name : String) : Option VariableKind := (r.held name).map Content.kind

def namesOf (kind : VariableKind) : List String :=
  r.order.filter fun name => r.kindOf? name = some kind

/-- What a view shows of a name, if it is known. -/
def shown? {α : Type} (view : String → Content → Option α) (name : String) : Option α :=
  (r.held name).bind (view name)

def entries {α : Type} (view : String → Content → Option α) : List α :=
  r.order.filterMap (r.shown? view)

def scalar? : String → Option Scalar := r.shown? Content.scalar?

def array? : String → Option ArrayVariable := r.shown? Content.array?

def scalars : List Scalar := r.entries Content.scalar?

def arrays : List ArrayVariable := r.entries Content.array?

def scalarValue? (name : String) : Option Int :=
  match r.held name with
  | some (.scalar value) => some value
  | _ => none

def arrayValue? (name : String) (index : Nat) : Option Int :=
  match r.held name with
  | some (.array slots) => slots[index]?
  | _ => none

/-- The table that shows the scalars and the arrays apart. -/
def table : Table where
  scalars := r.scalars
  arrays := r.arrays

variable {r} {r' : Registry} {name : String} {kind : VariableKind} {content : Content}

theorem notMem_order_iff : name ∉ r.order ↔ r.held name = none := by
  rw [r.mem_order_iff, Option.not_isSome_iff_eq_none]

theorem held_hold_of_ne {other : String} (apart : other ≠ name) :
    (r.hold name content).held other = r.held other :=
  Function.update_of_ne apart _ _

theorem kindOf?_hold (r : Registry) (name : String) (content : Content) :
    (r.hold name content).kindOf? = r.kindOf? := by
  funext other
  by_cases same : other = name
  · subst same
    cases held : r.held other with
    | none => simp [kindOf?, hold, held]
    | some content' => simp [kindOf?, hold, held, Content.kind_take]
  · rw [kindOf?, held_hold_of_ne same, kindOf?]

theorem order_holdAll (r : Registry) (told : List (String × Content)) :
    (r.holdAll told).order = r.order := by
  induction told generalizing r with
  | nil => rfl
  | cons entry told ih => exact ih (r.hold entry.1 entry.2)

theorem kindOf?_holdAll (r : Registry) (told : List (String × Content)) :
    (r.holdAll told).kindOf? = r.kindOf? := by
  induction told generalizing r with
  | nil => rfl
  | cons entry told ih => exact (ih (r.hold entry.1 entry.2)).trans (kindOf?_hold r _ _)

/-- A name that is told nothing holds what it held. -/
theorem held_holdAll_of_untold {told : List (String × Content)}
    (untold : ∀ entry ∈ told, entry.1 ≠ name) : (r.holdAll told).held name = r.held name := by
  induction told generalizing r with
  | nil => rfl
  | cons entry told ih =>
    obtain ⟨first, others⟩ := List.forall_mem_cons.mp untold
    exact (ih others).trans (held_hold_of_ne first.symm)

theorem add_eq_ok (h : r.add kind name = .ok r') :
    r.held name = none ∧ r'.order = r.order ++ [name] ∧
      r'.held = Function.update r.held name (some (.initial kind)) := by
  unfold add at h
  split at h
  · rename_i fresh
    obtain rfl := Except.ok.inj h
    exact ⟨fresh, rfl, rfl⟩
  · simp at h

theorem exists_add (fresh : r.held name = none) (kind : VariableKind) :
    ∃ r', r.add kind name = .ok r' :=
  ⟨_, dif_pos fresh⟩

theorem add_of_held (known : r.held name ≠ none) (kind : VariableKind) :
    r.add kind name = .error .nameTaken :=
  dif_neg known

section View

variable {α : Type} {nameOf : α → String} {view : String → Content → Option α}

theorem shown?_of_unlisted (unlisted : name ∉ r.order) : r.shown? view name = none := by
  rw [shown?, notMem_order_iff.mp unlisted, Option.bind_none]

variable (named : ∀ {name content a}, view name content = some a → nameOf a = name)
include named

theorem name_of_shown? {a : α} (h : r.shown? view name = some a) : nameOf a = name := by
  obtain ⟨content, -, read⟩ := Option.bind_eq_some_iff.mp h
  exact named read

/-- The first entry of a name is what is shown of it. -/
theorem find?_entries (r : Registry) (name : String) :
    (r.entries view).find? (fun a => nameOf a = name) = r.shown? view name := by
  -- Over any list of names: the induction leaves the order of the registry behind.
  have search (order : List String) :
      (order.filterMap (r.shown? view)).find? (fun a => nameOf a = name) =
        if name ∈ order then r.shown? view name else none := by
    induction order with
    | nil => rfl
    | cons first order ih =>
      by_cases same : first = name
      · subst same
        cases read : r.shown? view first with
        | none => simp [read, ih]
        | some a => simp [read, name_of_shown? named read]
      · have apart : name ≠ first := Ne.symm same
        cases read : r.shown? view first with
        | none => simp [read, ih, apart]
        | some a => simp [read, ih, apart, same, name_of_shown? named read]
  rw [entries, search]
  split
  · rfl
  · rename_i unlisted
    exact (shown?_of_unlisted unlisted).symm

theorem map_nameOf_entries (r : Registry) :
    (r.entries view).map nameOf = r.order.filter fun name => (r.shown? view name).isSome := by
  unfold entries
  induction r.order with
  | nil => rfl
  | cons first order ih =>
    cases read : r.shown? view first with
    | none => simp [read, ih]
    | some a => simp [read, ih, name_of_shown? named read]

/-- To tell a name what to hold changes its entry in place. -/
theorem entries_hold {take : α → Content → α}
    (takes : ∀ held : Content, view name (held.take content) =
      (view name held).map (take · content)) :
    (r.hold name content).entries view =
      (r.entries view).map fun a => if nameOf a = name then take a content else a := by
  rw [entries, entries, List.map_filterMap]
  refine List.filterMap_congr ?_
  intro other _
  by_cases same : other = name
  · subst same
    cases held : r.held other with
    | none => simp [shown?, hold, held]
    | some content' =>
      cases read : view other content' with
      | none => simp [shown?, hold, held, takes, read]
      | some a => simp [shown?, hold, held, takes, read, named read]
  · rw [shown?, held_hold_of_ne same, ← shown?]
    cases read : r.shown? view other with
    | none => rfl
    | some a => simp [name_of_shown? named read, same]

omit named in
/-- The entry of a new name comes last. -/
theorem entries_add (h : r.add kind name = .ok r') :
    r'.entries view = r.entries view ++ (view name (.initial kind)).toList := by
  obtain ⟨fresh, order, held⟩ := add_eq_ok h
  have before : r.order.filterMap (r'.shown? view) = r.order.filterMap (r.shown? view) := by
    refine List.filterMap_congr ?_
    intro other listed
    have apart : other ≠ name := by
      rintro rfl
      exact notMem_order_iff.mpr fresh listed
    rw [shown?, held, Function.update_of_ne apart, shown?]
  have last : [name].filterMap (r'.shown? view) = (view name (.initial kind)).toList := by
    have read : r'.shown? view name = view name (.initial kind) := by
      rw [shown?, held, Function.update_self, Option.bind_some]
    cases shows : view name (.initial kind) <;> simp [read, shows]
  rw [entries, order, List.filterMap_append, before, last, entries]

end View

theorem scalar?_table (r : Registry) (name : String) : r.table.scalar? name = r.scalar? name :=
  find?_entries Content.name_of_scalar? r name

theorem array?_table (r : Registry) (name : String) : r.table.array? name = r.array? name :=
  find?_entries Content.name_of_array? r name

theorem kindOf?_table (r : Registry) (name : String) : r.table.kindOf? name = r.kindOf? name := by
  rw [Table.kindOf?, scalar?_table, array?_table, kindOf?, scalar?, array?, shown?, shown?]
  cases r.held name with
  | none => rfl
  | some content => cases content <;> rfl

theorem contains_table (r : Registry) (name : String) : r.table.contains name = r.contains name := by
  rw [Table.contains, kindOf?_table, kindOf?, Option.isSome_map, contains]

theorem scalarValue?_table (r : Registry) (name : String) :
    r.table.scalarValue? name = r.scalarValue? name := by
  rw [Table.scalarValue?, scalar?_table, scalar?, shown?, scalarValue?]
  cases r.held name with
  | none => rfl
  | some content => cases content <;> rfl

theorem arrayValue?_table (r : Registry) (name : String) (index : Nat) :
    r.table.arrayValue? name index = r.arrayValue? name index := by
  rw [Table.arrayValue?, array?_table, array?, shown?, arrayValue?]
  cases r.held name with
  | none => rfl
  | some content => cases content <;> rfl

theorem namesOf_table (r : Registry) : r.table.namesOf = r.namesOf := by
  funext kind
  cases kind with
  | scalar =>
    refine (map_nameOf_entries Content.name_of_scalar? r).trans (List.filter_congr ?_)
    intro name _
    rw [shown?, kindOf?]
    cases r.held name with
    | none => rfl
    | some content => cases content <;> rfl
  | array =>
    refine (map_nameOf_entries Content.name_of_array? r).trans (List.filter_congr ?_)
    intro name _
    rw [shown?, kindOf?]
    cases r.held name with
    | none => rfl
    | some content => cases content <;> rfl

/-- What a table is told is told to the map. -/
theorem table_hold (r : Registry) (name : String) (content : Content) :
    (r.hold name content).table = r.table.hold name content := by
  have scalars : (r.hold name content).scalars = (r.table.hold name content).scalars :=
    entries_hold Content.name_of_scalar? fun held => Content.scalar?_take held content
  have arrays : (r.hold name content).arrays = (r.table.hold name content).arrays :=
    entries_hold Content.name_of_array? fun held => Content.array?_take held content
  exact congrArg₂ Table.mk scalars arrays

theorem table_holdAll (r : Registry) (told : List (String × Content)) :
    (r.holdAll told).table = r.table.holdAll told := by
  induction told generalizing r with
  | nil => rfl
  | cons entry told ih =>
    rw [holdAll, List.foldl_cons, ← holdAll, ih, table_hold]
    rfl

theorem table_add (r : Registry) (kind : VariableKind) (name : String) :
    r.table.add kind name = (r.add kind name).map table := by
  unfold Table.add
  rw [contains_table, contains]
  by_cases fresh : r.held name = none
  · obtain ⟨r', added⟩ := exists_add fresh kind
    have shown : r'.table = {
        scalars := r.scalars ++ (Content.scalar? name (.initial kind)).toList
        arrays := r.arrays ++ (Content.array? name (.initial kind)).toList } :=
      congrArg₂ Table.mk (entries_add added) (entries_add added)
    rw [added, fresh, Except.map, shown]
    cases kind <;> simp [Content.initial, Content.scalar?, Content.array?, table]
  · simp [add_of_held fresh, Option.isSome_iff_ne_none, fresh, Except.map]

theorem table_setScalar (r : Registry) (name : String) (value : Int) :
    r.table.setScalar name value = (r.setScalar name value).map table := by
  rw [Table.setScalar, scalar?_table, scalar?, shown?, setScalar, ← Table.hold_scalar]
  cases held : r.held name with
  | none => rfl
  | some content =>
    cases content with
    | scalar value' => simp [Content.scalar?, Except.map, table_hold]
    | array slots => simp [Content.scalar?, Except.map]

theorem table_allocate (r : Registry) (name : String) (size : Nat) :
    r.table.allocate name size = (r.allocate name size).map table := by
  rw [Table.allocate, array?_table, array?, shown?, allocate, ← Table.hold_array]
  cases held : r.held name with
  | none => rfl
  | some content =>
    cases content with
    | scalar value => simp [Content.array?, Except.map]
    | array slots =>
      by_cases large : Table.storageLimit ≤ size
      · simp [Content.array?, Except.map, large]
      · simp [Content.array?, Except.map, large, table_hold]

/-- Changing the slots that an array holds is telling it the changed slots. -/
theorem updateSlots_table {slots : Array Int} (held : r.held name = some (.array slots))
    (change : Array Int → Array Int) :
    r.table.updateSlots name change = (r.hold name (.array (change slots))).table := by
  rw [table_hold, Table.hold_array]
  have arrays : (r.table.arrays.map fun a =>
      if a.name = name then { a with values := change a.values } else a) =
        r.table.arrays.map fun a => if a.name = name then { a with values := change slots } else a := by
    refine List.map_congr_left ?_
    intro a mem
    by_cases same : a.name = name
    -- The entry is read off the map, so it holds what the map holds under the name.
    · obtain ⟨other, -, read⟩ := List.mem_filterMap.mp mem
      obtain rfl : other = name := (name_of_shown? Content.name_of_array? read).symm.trans same
      rw [shown?, held] at read
      obtain rfl := Option.some.inj read
      rfl
    · rw [if_neg same, if_neg same]
  rw [Table.updateSlots, arrays, Table.updateSlots]

theorem table_setSlot (r : Registry) (name : String) (index : Nat) (value : Int) :
    r.table.setSlot name index value = (r.setSlot name index value).map table := by
  rw [Table.setSlot, array?_table, array?, shown?, setSlot]
  cases held : r.held name with
  | none => rfl
  | some content =>
    cases content with
    | scalar value => rfl
    | array slots =>
      by_cases inside : index < slots.size
      · simp [Content.array?, ArrayVariable.size, Except.map, inside, updateSlots_table held]
      · simp [Content.array?, ArrayVariable.size, Except.map, inside]

/-- What an update is that only tells a name what to hold, unless it is refused. -/
inductive Tells (r : Registry) (name : String) : Except Refusal Registry → Prop where
  | told (content : Content) : Tells r name (.ok (r.hold name content))
  | refused (refusal : Refusal) : Tells r name (.error refusal)

theorem tells_setScalar (r : Registry) (name : String) (value : Int) :
    r.Tells name (r.setScalar name value) := by
  unfold setScalar
  split
  · exact .told _
  · exact .refused _

theorem tells_allocate (r : Registry) (name : String) (size : Nat) :
    r.Tells name (r.allocate name size) := by
  unfold allocate
  split
  · split
    · exact .refused _
    · exact .told _
  · exact .refused _

theorem tells_setSlot (r : Registry) (name : String) (index : Nat) (value : Int) :
    r.Tells name (r.setSlot name index value) := by
  unfold setSlot
  split
  · split
    · exact .told _
    · exact .refused _
  · exact .refused _

theorem nodup_names_table (r : Registry) : r.table.names.Nodup := by
  have names : r.table.names = r.namesOf .scalar ++ r.namesOf .array := by
    rw [← namesOf_table]
    rfl
  rw [names]
  refine List.nodup_append.mpr ⟨r.nodup.filter _, r.nodup.filter _, ?_⟩
  rintro name scalar _ array rfl
  have one : r.kindOf? name = some .scalar := by simpa using (List.mem_filter.mp scalar).2
  have other : r.kindOf? name = some .array := by simpa using (List.mem_filter.mp array).2
  simp [one] at other

/-- The names that were known are known as what they were, and come first as they came. -/
structure Extends (r r' : Registry) : Prop where
  order : r.order <+: r'.order
  kinds : ∀ name ∈ r.order, r'.kindOf? name = r.kindOf? name

theorem Extends.isPrefix_namesOf (h : r.Extends r') (kind : VariableKind) :
    r.namesOf kind <+: r'.namesOf kind := by
  obtain ⟨later, split⟩ := h.order
  have before : (r.order.filter fun name => r'.kindOf? name = some kind) = r.namesOf kind := by
    refine List.filter_congr ?_
    intro name listed
    rw [h.kinds name listed]
  have after : r'.namesOf kind = r.namesOf kind ++
      later.filter fun name => r'.kindOf? name = some kind := by
    rw [namesOf, ← split, List.filter_append, before]
  exact ⟨_, after.symm⟩

theorem extends_add (h : r.add kind name = .ok r') : r.Extends r' := by
  obtain ⟨fresh, order, held⟩ := add_eq_ok h
  refine ⟨order ▸ List.prefix_append _ _, ?_⟩
  intro other listed
  have apart : other ≠ name := by
    rintro rfl
    exact notMem_order_iff.mpr fresh listed
  rw [kindOf?, held, Function.update_of_ne apart, kindOf?]

theorem extends_holdAll (r : Registry) (told : List (String × Content)) :
    r.Extends (r.holdAll told) where
  order := ⟨[], by rw [List.append_nil, order_holdAll]⟩
  kinds := by
    intro name _
    rw [kindOf?_holdAll]

end Registry

end ArrayCalc
