import ArrayCalc.Proofs.Load.Names
import ArrayCalc.Proofs.Load.Rendering

/-! Loading a source line by line. A line that can be read has no fault, and a source of such lines
tells a table one after the other. -/
namespace ArrayCalc

open Text

namespace SourceLine

/-- A line that can be read, and that is about none of the names given unless it tells a variable.
An array line lists every slot that is not zero. -/
inductive Proper (names : List String) : SourceLine → Prop where
  | scalar {name : String} {value : Int} (word : IsWord isWhitespace name.toList)
      (fits : IsInt32 value) : Proper names (.scalar name value)
  | array {name : String} {slots : List Int} {listed : List Nat}
      (word : IsWord isWhitespace name.toList) (small : slots.length < int32Limit)
      (fit : ∀ value ∈ slots, IsInt32 value) (inside : ∀ index ∈ listed, index < slots.length)
      (complete : ∀ index < slots.length, slots.getD index 0 ≠ 0 → index ∈ listed) :
      Proper names (.array name slots listed)
  | other {text : String} (single : '\n' ∉ text.toList)
      (foreign : ∀ name ∈ (Record.words text).head?, name ∉ names) : Proper names (.other text)

def update (t : Table) : SourceLine → Table
  | scalar name value =>
    match t.setScalar name value with
    | .ok changed => changed
    | .error _ => t
  | array name slots _ => t.updateSlots name fun _ => slots.toArray
  | other _ => t

end SourceLine

def sourceOf (lines : List SourceLine) : String := "\n".intercalate (lines.map SourceLine.text)

namespace SourceLine

variable {names : List String} {line : SourceLine} {t : Table} {number : Nat}

theorem namesOf_update (t : Table) (line : SourceLine) (kind : VariableKind) :
    (line.update t).namesOf kind = t.namesOf kind := by
  cases line with
  | scalar name value =>
    simp only [update]
    split
    · rename_i changed set
      exact Table.namesOf_setScalar set kind
    · rfl
  | array name slots listed => exact Table.namesOf_updateSlots t name _ kind
  | other text => rfl

theorem notMem_of_not_contains {name : String} (fresh : ¬ t.contains name = true)
    (kind : VariableKind) : name ∉ t.namesOf kind := by
  intro mem
  exact fresh (Table.contains_iff.mpr ⟨kind, mem⟩)

theorem isWord_scalarWords {name : String} (word : IsWord isWhitespace name.toList) (value : Int) :
    ∀ w ∈ [name, toString value], IsWord isWhitespace w.toList :=
  List.forall_mem_cons.mpr ⟨word, List.forall_mem_singleton.mpr
    (isWord_integer value fun _ => isWhitespace_of_integer)⟩

theorem apply_scalar {name : String} {value : Int} (word : IsWord isWhitespace name.toList)
    (fits : IsInt32 value) :
    (Record.apply t number (Record.words (text (.scalar name value)))).table =
        update t (.scalar name value) ∧
      (Record.apply t number (Record.words (text (.scalar name value)))).fault = none := by
  have read : Record.words (text (.scalar name value)) = [name, toString value] :=
    Record.words_intercalate (isWord_scalarWords word value)
  rw [read]
  by_cases contains : t.contains name = true
  · simp only [Record.apply, contains, Bool.not_true, Bool.false_eq_true, if_false,
      Record.applyScalar, int32?_toString fits.1 fits.2, update]
    cases t.setScalar name value with
    | ok changed => exact ⟨rfl, rfl⟩
    | error refusal => exact ⟨rfl, rfl⟩
  · simp [Record.apply, contains, update,
      Table.setScalar_of_notMem (notMem_of_not_contains contains .scalar)]

theorem pairs_ne_nil (slots : List Int) (listed : List Nat) : pairs slots listed ≠ [] := by
  unfold pairs
  split
  · simp
  · simpa using ‹¬ listed = []›

theorem isWord_arrayWords {name : String} (word : IsWord isWhitespace name.toList)
    (slots : List Int) (listed : List Nat) :
    ∀ w ∈ name :: toString slots.length :: pairs slots listed, IsWord isWhitespace w.toList :=
  List.forall_mem_cons.mpr ⟨word, List.forall_mem_cons.mpr
    ⟨isWord_natural _ fun _ => isWhitespace_of_integer, Record.isWord_pairs slots listed⟩⟩

theorem apply_array {name : String} {slots : List Int} {listed : List Nat}
    (word : IsWord isWhitespace name.toList) (small : slots.length < int32Limit)
    (fit : ∀ value ∈ slots, IsInt32 value) (inside : ∀ index ∈ listed, index < slots.length)
    (complete : ∀ index < slots.length, slots.getD index 0 ≠ 0 → index ∈ listed) :
    (Record.apply t number (Record.words (text (.array name slots listed)))).table =
        update t (.array name slots listed) ∧
      (Record.apply t number (Record.words (text (.array name slots listed)))).fault = none := by
  have read : Record.words (text (.array name slots listed)) =
      name :: toString slots.length :: pairs slots listed :=
    Record.words_intercalate (isWord_arrayWords word slots listed)
  have limit : slots.length < Table.storageLimit := Nat.lt_trans small (by decide)
  rw [read]
  by_cases contains : t.contains name = true
  · obtain ⟨first, others, nonempty⟩ := List.exists_cons_of_ne_nil (pairs_ne_nil slots listed)
    have numbers := Record.numbers_pairs slots listed
    rw [nonempty] at numbers ⊢
    simp only [Record.apply, contains, Bool.not_true, Bool.false_eq_true, if_false,
      Record.applyArray, size?_toString small, update]
    by_cases known : name ∈ t.namesOf .array
    · simp only [Table.allocate_of_mem known limit, numbers,
        Record.assignments_pairs slots listed name number small fit inside,
        Table.updateSlots_updateSlots, Record.write_pairs slots listed complete, and_self]
    · simp [Table.allocate_of_notMem known, Table.updateSlots_of_notMem known]
  · simp [Record.apply, contains, update,
      Table.updateSlots_of_notMem (notMem_of_not_contains contains .array)]

theorem apply_other {text : String} (known : ∀ kind, ∀ name ∈ t.namesOf kind, name ∈ names)
    (foreign : ∀ name ∈ (Record.words text).head?, name ∉ names) :
    (Record.apply t number (Record.words text)).table = t ∧
      (Record.apply t number (Record.words text)).fault = none := by
  cases read : Record.words text with
  | nil => simp [Record.apply]
  | cons name rest =>
    have absent : ¬ t.contains name = true := by
      intro contains
      obtain ⟨kind, mem⟩ := Table.contains_iff.mp contains
      exact foreign name (by simp [read]) (known kind name mem)
    simp [Record.apply, absent]

theorem Proper.apply_eq (h : Proper names line)
    (known : ∀ kind, ∀ name ∈ t.namesOf kind, name ∈ names) (number : Nat) :
    (Record.apply t number (Record.words line.text)).table = line.update t ∧
      (Record.apply t number (Record.words line.text)).fault = none := by
  cases h with
  | scalar word fits => exact apply_scalar word fits
  | array word small fit inside complete => exact apply_array word small fit inside complete
  | other single foreign => exact apply_other known foreign

theorem newline_notMem_intercalate {ws : List String}
    (all : ∀ w ∈ ws, IsWord isWhitespace w.toList) : '\n' ∉ (" ".intercalate ws).toList := by
  have blank : (" " : String).toList = [' '] := rfl
  rw [String.toList_intercalate, blank]
  refine notMem_intercalate (by decide) (List.forall_mem_map.mpr ?_)
  intro w mem newline
  have inside := (all w mem).inside _ newline
  contradiction

theorem Proper.newline_notMem (h : Proper names line) : '\n' ∉ line.text.toList := by
  cases h with
  | scalar word fits => exact newline_notMem_intercalate (isWord_scalarWords word _)
  | array word => exact newline_notMem_intercalate (isWord_arrayWords word _ _)
  | other single => exact single

end SourceLine

section Load

variable {names : List String} {lines : List SourceLine} {t : Table}

theorem linesOfText_sourceOf (solid : lines ≠ []) (proper : ∀ line ∈ lines, line.Proper names) :
    linesOfText (sourceOf lines) = lines.map fun line => some line.text := by
  have newline : ("\n" : String).toList = ['\n'] := rfl
  have single : ∀ text ∈ (lines.map SourceLine.text).map String.toList, '\n' ∉ text := by
    simpa using fun line mem => (proper line mem).newline_notMem
  rw [linesOfText, sourceOf, String.toList_intercalate, newline,
    List.splitOn_intercalate '\n' single (by simpa using solid)]
  simp

theorem loadLines_eq (proper : ∀ line ∈ lines, line.Proper names)
    (known : ∀ kind, ∀ name ∈ t.namesOf kind, name ∈ names) (number : Nat) :
    (t.loadLines number (lines.map fun line => some line.text)).table =
        lines.foldl SourceLine.update t ∧
      (t.loadLines number (lines.map fun line => some line.text)).fault = none := by
  induction lines generalizing t number with
  | nil => exact ⟨rfl, rfl⟩
  | cons line lines ih =>
    obtain ⟨first, others⟩ := List.forall_mem_cons.mp proper
    obtain ⟨table, fault⟩ := first.apply_eq known number
    have known' : ∀ kind, ∀ name ∈ (line.update t).namesOf kind, name ∈ names := by
      intro kind name mem
      rw [SourceLine.namesOf_update] at mem
      exact known kind name mem
    obtain ⟨rest, done⟩ := ih others known' (number + 1)
    simp only [List.map_cons, Table.loadLines, fault, table, List.foldl_cons]
    exact ⟨rest, done⟩

/-- A source of proper lines tells them one after the other. -/
theorem loadText_eq (proper : ∀ line ∈ lines, line.Proper names)
    (known : ∀ kind, ∀ name ∈ t.namesOf kind, name ∈ names) :
    (t.loadText (sourceOf lines)).table = lines.foldl SourceLine.update t ∧
      (t.loadText (sourceOf lines)).fault = none := by
  by_cases solid : lines = []
  · subst solid
    exact ⟨rfl, rfl⟩
  · rw [Table.loadText, linesOfText_sourceOf solid proper]
    exact loadLines_eq proper known 1

theorem scalarValue?_update_of_ne {name : String} {line : SourceLine}
    (apart : ∀ value, line ≠ .scalar name value) :
    (line.update t).scalarValue? name = t.scalarValue? name := by
  cases line with
  | scalar other value =>
    simp only [SourceLine.update]
    split
    · rename_i changed set
      have different : name ≠ other := fun same => apart value (same ▸ rfl)
      rw [Table.scalarValue?_setScalar set, if_neg different]
    · rfl
  | array | other => rfl

theorem array?_update_of_ne {name : String} {line : SourceLine}
    (apart : ∀ slots listed, line ≠ .array name slots listed) :
    (line.update t).array? name = t.array? name := by
  cases line with
  | scalar other value =>
    simp only [SourceLine.update]
    split
    · rename_i changed set
      rw [Table.array?, Table.arrays_setScalar set]
      rfl
    · rfl
  | array other slots listed =>
    have different : name ≠ other := fun same => apart slots listed (same ▸ rfl)
    rw [SourceLine.update, Table.array?_updateSlots]
    simp [different]
  | other => rfl

theorem scalarValue?_update_self {name : String} (known : name ∈ t.namesOf .scalar) (value : Int) :
    ((SourceLine.scalar name value).update t).scalarValue? name = some value := by
  obtain ⟨changed, set⟩ := Table.setScalar_of_mem known value
  simp only [SourceLine.update, set]
  rw [Table.scalarValue?_setScalar set, if_pos rfl]

theorem array?_update_self {name : String} {slots : List Int} {listed : List Nat}
    (known : name ∈ t.namesOf .array) :
    (((SourceLine.array name slots listed).update t).array? name).map
      (fun a => a.values.toList) = some slots := by
  obtain ⟨a, found⟩ := Option.isSome_iff_exists.mp (Table.isSome_array?_iff.mpr known)
  simp [SourceLine.update, Table.array?_updateSlots, found]

/-- A scalar holds what all its lines agree on, or what it held if there are none. -/
theorem scalarValue?_foldl_update {name : String} {value : Int}
    (known : name ∈ t.namesOf .scalar) (agree : ∀ v, .scalar name v ∈ lines → v = value)
    (told : .scalar name value ∈ lines ∨ t.scalarValue? name = some value) :
    (lines.foldl SourceLine.update t).scalarValue? name = some value := by
  have about : (∃ line ∈ lines, ∃ v, line = .scalar name v) ∨ t.scalarValue? name = some value := by
    rcases told with mem | held
    · exact .inl ⟨_, mem, value, rfl⟩
    · exact .inr held
  refine holds_foldl (fun t : Table => name ∈ t.namesOf .scalar)
    (fun t => t.scalarValue? name = some value) _ ?_ ?_ ?_ known about
  · intro t line known
    rwa [SourceLine.namesOf_update]
  · rintro _ mem ⟨v, rfl⟩ t known
    rw [scalarValue?_update_self known, agree v mem]
  · intro line apart t held
    rw [scalarValue?_update_of_ne (fun v same => apart ⟨v, same⟩), held]

/-- An array has the slots that all its lines agree on, or those it had if there are none. -/
theorem array?_foldl_update {name : String} {slots : List Int}
    (known : name ∈ t.namesOf .array)
    (agree : ∀ slots' listed, .array name slots' listed ∈ lines → slots' = slots)
    (told : (∃ listed, .array name slots listed ∈ lines) ∨
      (t.array? name).map (fun a => a.values.toList) = some slots) :
    ((lines.foldl SourceLine.update t).array? name).map (fun a => a.values.toList) =
      some slots := by
  have about : (∃ line ∈ lines, ∃ slots' listed, line = .array name slots' listed) ∨
      (t.array? name).map (fun a => a.values.toList) = some slots := by
    rcases told with ⟨listed, mem⟩ | held
    · exact .inl ⟨_, mem, slots, listed, rfl⟩
    · exact .inr held
  refine holds_foldl (fun t : Table => name ∈ t.namesOf .array)
    (fun t => (t.array? name).map (fun a => a.values.toList) = some slots) _ ?_ ?_ ?_ known about
  · intro t line known
    rwa [SourceLine.namesOf_update]
  · rintro _ mem ⟨slots', listed, rfl⟩ t known
    rw [array?_update_self known, agree slots' listed mem]
  · intro line apart t held
    rw [array?_update_of_ne (fun slots' listed same => apart ⟨slots', listed, same⟩), held]

end Load

end ArrayCalc
