import ArrayCalc.Proofs.Load.Reading

/-! What the record of an array does, said of the characters of its line. What follows the size is
read as numbers, whatever groups them, and these are taken two at a time: each pair assigns a value
to a slot, and the first that does not ends the record. -/
namespace ArrayCalc

namespace Text

structure WritesInt32 (word : String) (value : Int) : Prop where
  writes : WritesInteger word.toList value
  int : IsInt32 value

theorem int32?_eq_some_iff {word : String} {value : Int} :
    int32? word = some value ↔ WritesInt32 word value := by
  rw [int32?, Option.filter_eq_some_iff, integer?_eq_some_iff, decide_eq_true_eq]
  constructor
  · rintro ⟨writes, int⟩
    exact ⟨writes, int⟩
  · rintro ⟨writes, int⟩
    exact ⟨writes, int⟩

theorem size?_eq_some_iff {word : String} {size : Nat} :
    size? word = some size ↔ WritesInt32 word size := by
  rw [size?, Option.map_eq_some_iff]
  simp only [Option.filter_eq_some_iff, decide_eq_true_eq, int32?_eq_some_iff]
  constructor
  · rintro ⟨value, ⟨writes, nonneg⟩, rfl⟩
    rwa [Int.toNat_of_nonneg nonneg]
  · intro writes
    exact ⟨size, ⟨writes, Int.natCast_nonneg size⟩, Int.toNat_natCast size⟩

theorem WritesInt32.unique {word : String} {value value' : Int} (h : WritesInt32 word value)
    (h' : WritesInt32 word value') : value = value' :=
  Option.some.inj ((int32?_eq_some_iff.mpr h).symm.trans (int32?_eq_some_iff.mpr h'))

end Text

open Text

/-- Numbers taken two at a time: each with the one that follows it, the last one alone if their
number is odd. -/
def pairUp {α : Type} : List α → List (α × Option α)
  | [] => []
  | [a] => [(a, none)]
  | a :: b :: rest => (a, some b) :: pairUp rest

namespace Record

def partsNumbers (c : Char) : Bool := isWhitespace c || c ∈ ['(', ',', ')']

/-- The numbers of an array record: the longest runs of other characters after the name and the size.
-/
def numbersOf (line : String) : List String :=
  (Text.words partsNumbers
    (afterWord isWhitespace (afterWord isWhitespace line.toList))).map String.ofList

inductive Assigns (size : Nat) : String × Option String → Nat × Int → Prop where
  | mk {indexWord valueWord : String} {slot : Nat} {value : Int}
      (index : WritesInt32 indexWord slot) (inside : slot < size)
      (written : WritesInt32 valueWord value) :
      Assigns size (indexWord, some valueWord) (slot, value)

/-- Why a pair of numbers assigns nothing: its value is missing, else its index is no integer, else
its value is none, else its index is outside the array. -/
inductive Offends (name : String) (size line : Nat) : String × Option String → LoadError → Prop where
  | missing (indexWord : String) : Offends name size line (indexWord, none) (.incomplete name line)
  | index {indexWord : String} (valueWord : String) (bad : ∀ index, ¬WritesInt32 indexWord index) :
      Offends name size line (indexWord, some valueWord) (.notInteger indexWord line)
  | value {indexWord valueWord : String} {index : Int} (written : WritesInt32 indexWord index)
      (bad : ∀ value, ¬WritesInt32 valueWord value) :
      Offends name size line (indexWord, some valueWord) (.notInteger valueWord line)
  | outside {indexWord valueWord : String} {index value : Int}
      (written : WritesInt32 indexWord index) (written' : WritesInt32 valueWord value)
      (outside : ¬(0 ≤ index ∧ index < size)) :
      Offends name size line (indexWord, some valueWord) (.indexOutOfRange name index size line)

/-- The value that a slot is assigned last, or zero. -/
def lastValue (changes : List (Nat × Int)) (slot : Nat) : Int :=
  ((changes.filter fun change => change.1 = slot).getLast?.map Prod.snd).getD 0

section Numbers

theorem isWhitespace_of_isBlank {c : Char} (blank : isBlank c = true) : isWhitespace c = true := by
  simp only [isBlank, Bool.or_eq_true, decide_eq_true_eq] at blank
  rcases blank with rfl | rfl
  all_goals decide

/-- The numbers in the words after the size are those of the line. -/
theorem numbers_eq {line name sizeWord : String} {pairs : List String}
    (h : words line = name :: sizeWord :: pairs) : numbers pairs = numbersOf line := by
  have rest : pairs = (Text.words isWhitespace
      (afterWord isWhitespace (afterWord isWhitespace line.toList))).map String.ofList := by
    rw [words_afterWord, words_afterWord, List.map_tail, List.map_tail, ← words, h]
    rfl
  have finer : ∀ c, isWhitespace c = true → partsNumbers c = true := by
    intro c space
    simp [partsNumbers, space]
  rw [numbersOf, words_eq_flatMap finer, numbers, rest, List.flatMap_map, List.map_flatMap]
  refine List.flatMap_congr ?_
  intro word mem
  rw [String.toList_ofList]
  refine congrArg _ (words_congr ?_)
  -- within a word the blanks of the pairs are the only whitespace there could be
  intro c inside
  have solid := (isWord_of_mem_words mem).inside c inside
  have visible : isBlank c = false := by
    by_contra blank
    simp [isWhitespace_of_isBlank (Bool.not_eq_false _ ▸ blank)] at solid
  simp [separatesNumbers, partsNumbers, solid, visible]

end Numbers

section Pairs

variable {name : String} {size line : Nat}

theorem slotOfInt?_eq_some_iff {index : Int} {slot : Nat} :
    Number.slotOfInt? index size = some slot ↔ index = slot ∧ slot < size := by
  simp only [Number.slotOfInt?, Option.ite_none_right_eq_some, Option.some.injEq]
  omega

/-- The pairs are read up to the first that offends, or to the end. -/
theorem exists_assigns (name : String) (size line : Nat) (numbers : List String) :
    ∃ before, List.Forall₂ (Assigns size) before (assignments name size line numbers).1 ∧
      ((pairUp numbers = before ∧ (assignments name size line numbers).2 = none) ∨
        ∃ pair after e, pairUp numbers = before ++ pair :: after ∧
          Offends name size line pair e ∧ (assignments name size line numbers).2 = some e) := by
  fun_induction assignments name size line numbers with
  | case1 => exact ⟨[], .nil, .inl ⟨rfl, rfl⟩⟩
  | case2 indexWord => exact ⟨[], .nil, .inr ⟨_, [], _, rfl, .missing indexWord, rfl⟩⟩
  | case3 indexWord valueWord rest read =>
    have bad : ∀ index, ¬WritesInt32 indexWord index := by
      intro index written
      simp [int32?_eq_some_iff.mpr written] at read
    exact ⟨[], .nil, .inr ⟨_, _, _, rfl, .index valueWord bad, rfl⟩⟩
  | case4 indexWord valueWord rest index read read' =>
    have bad : ∀ value, ¬WritesInt32 valueWord value := by
      intro value written
      simp [int32?_eq_some_iff.mpr written] at read'
    exact ⟨[], .nil, .inr ⟨_, _, _, rfl, .value (int32?_eq_some_iff.mp read) bad, rfl⟩⟩
  | case5 indexWord valueWord rest index read value read' unfit =>
    have outside : ¬(0 ≤ index ∧ index < size) := by
      intro inside
      simp [Number.slotOfInt?, inside] at unfit
    have written := int32?_eq_some_iff.mp read
    have written' := int32?_eq_some_iff.mp read'
    exact ⟨[], .nil, .inr ⟨_, _, _, rfl, .outside written written' outside, rfl⟩⟩
  | case6 indexWord valueWord rest index read value read' slot fits others fault rest' ih =>
    rw [rest'] at ih
    obtain ⟨before, assigned, ends⟩ := ih
    obtain ⟨rfl, inside⟩ := slotOfInt?_eq_some_iff.mp fits
    have first : Assigns size (indexWord, some valueWord) (slot, value) :=
      .mk (int32?_eq_some_iff.mp read) inside (int32?_eq_some_iff.mp read')
    refine ⟨_ :: before, .cons first assigned, ?_⟩
    rcases ends with ⟨all, none⟩ | ⟨pair, after, e, split, offends, some⟩
    · exact .inl ⟨by rw [pairUp, all], none⟩
    · exact .inr ⟨pair, after, e, by rw [pairUp, split, List.cons_append], offends, some⟩

/-- A pair that offends assigns nothing. -/
theorem Offends.not_assigns {pair : String × Option String} {e : LoadError} {change : Nat × Int}
    (h : Offends name size line pair e) : ¬Assigns size pair change := by
  rintro ⟨index, inside, written⟩
  cases h with
  | index _ bad => exact bad _ index
  | value _ bad => exact bad _ written
  | outside index' _ outside =>
    obtain rfl := index.unique index'
    omega

theorem exists_assigns_of_mem {pairs : List (String × Option String)} {changes : List (Nat × Int)}
    (h : List.Forall₂ (Assigns size) pairs changes) :
    ∀ pair ∈ pairs, ∃ change, Assigns size pair change := by
  induction h with
  | nil => simp
  | cons first _ ih => exact List.forall_mem_cons.mpr ⟨⟨_, first⟩, ih⟩

/-- The pairs are read to the end if each assigns a value. -/
theorem fault_assignments_eq_none_iff (numbers : List String) :
    (assignments name size line numbers).2 = none ↔
      ∀ pair ∈ pairUp numbers, ∃ change, Assigns size pair change := by
  obtain ⟨before, assigned, ends⟩ := exists_assigns name size line numbers
  rcases ends with ⟨all, none⟩ | ⟨pair, after, e, split, offends, some⟩
  · rw [all]
    exact iff_of_true none (exists_assigns_of_mem assigned)
  · refine iff_of_false (by simp [some]) ?_
    intro all
    obtain ⟨change, assigns⟩ := all pair (by simp [split])
    exact offends.not_assigns assigns

/-- Pairs are complete if the numbers are even in number, and hold each of these. -/
theorem forall_pairUp_iff {α : Type} {P : α → Prop} (numbers : List α) :
    (∀ pair ∈ pairUp numbers, P pair.1 ∧ ∃ second, pair.2 = some second ∧ P second) ↔
      numbers.length % 2 = 0 ∧ ∀ number ∈ numbers, P number := by
  fun_induction pairUp numbers with
  | case1 => simp
  | case2 => simp
  | case3 a b rest ih =>
    simp only [List.forall_mem_cons, ih, List.length_cons, Option.some.injEq, exists_eq_left']
    constructor
    · rintro ⟨⟨first, second⟩, even, others⟩
      exact ⟨by omega, first, second, others⟩
    · rintro ⟨even, first, second, others⟩
      exact ⟨⟨first, second⟩, by omega, others⟩

end Pairs

section Slots

theorem getElem?_write_eq (values : Array Int) (changes : List (Nat × Int)) {slot : Nat}
    (inside : slot < values.size) : (write values changes)[slot]? =
      ((changes.filter fun change => change.1 = slot).getLast?.map Prod.snd).or values[slot]? := by
  induction changes using List.reverseRecOn with
  | nil => rfl
  | append_singleton changes change ih =>
    have last : write values (changes ++ [change]) =
        (write values changes).setIfInBounds change.1 change.2 := by
      rw [write, List.foldl_append]
      rfl
    rw [last]
    by_cases about : change.1 = slot
    · subst about
      rw [Array.getElem?_setIfInBounds_self, if_pos (by rwa [size_write])]
      simp
    · rw [Array.getElem?_setIfInBounds_ne about, ih]
      simp [about]

/-- Zeros with changes made to them hold what each slot is assigned last. -/
theorem getElem?_write_replicate {size slot : Nat} (changes : List (Nat × Int))
    (inside : slot < size) :
    (write (Array.replicate size 0) changes)[slot]? = some (lastValue changes slot) := by
  rw [getElem?_write_eq _ _ (by simpa using inside), lastValue]
  cases changes.filter (fun change => change.1 = slot) |>.getLast? with
  | none => simp [inside]
  | some change => simp

end Slots

/-- The pairs all assign a value if none is incomplete, all numbers are integers and the indices are
inside the array. -/
theorem exists_assigns_iff {size : Nat} {numbers : List String} :
    (∀ pair ∈ pairUp numbers, ∃ change, Assigns size pair change) ↔
      numbers.length % 2 = 0 ∧ (∀ number ∈ numbers, ∃ value, WritesInt32 number value) ∧
        ∀ pair ∈ pairUp numbers, ∀ index, WritesInt32 pair.1 index → 0 ≤ index ∧ index < size := by
  rw [← and_assoc, ← forall_pairUp_iff]
  constructor
  · intro all
    constructor
    · intro pair mem
      obtain ⟨_, ⟨index, inside, written⟩⟩ := all pair mem
      exact ⟨⟨_, index⟩, _, rfl, _, written⟩
    · intro pair mem value written
      obtain ⟨_, ⟨index, inside, -⟩⟩ := all pair mem
      obtain rfl := written.unique index
      omega
  · rintro ⟨integers, inside⟩ ⟨indexWord, valueWord⟩ mem
    obtain ⟨⟨index, written⟩, valueWord, rfl, value, written'⟩ := integers _ mem
    obtain ⟨lower, upper⟩ := inside _ mem index written
    obtain ⟨slot, rfl⟩ := Int.eq_ofNat_of_zero_le lower
    exact ⟨(slot, value), .mk written (by omega) written'⟩

/-- What the record of an array leaves of a table when its size is sound: nothing but the array
changes, which has that many slots, each as the pairs assign it last or zero. The pairs count up to
the first that offends, which is the fault. -/
structure Fills (t : Table) (name : String) (size line : Nat)
    (pairs : List (String × Option String)) (loaded : Loaded) : Prop where
  notices : loaded.notices = []
  others : t.AgreeBut name loaded.table
  slots : ∃ before changes a, List.Forall₂ (Assigns size) before changes ∧
    loaded.table.array? name = some a ∧ a.size = size ∧
    (∀ slot < size, a.values[slot]? = some (lastValue changes slot)) ∧
    ((pairs = before ∧ loaded.fault = none) ∨
      ∃ pair after e, pairs = before ++ pair :: after ∧ Offends name size line pair e ∧
        loaded.fault = some e)

section Apply

variable {t : Table} {name line sizeWord : String} {more : List String}

theorem apply_eq_applyArray (number : Nat) (known : name ∈ t.namesOf .array) (solid : more ≠ []) :
    apply t number (name :: sizeWord :: more) = applyArray t number name sizeWord more := by
  have contains : t.contains name = true :=
    Table.contains_iff_mem_names.mpr (List.mem_append_right _ known)
  obtain ⟨word, more, rfl⟩ := List.exists_cons_of_ne_nil solid
  simp [apply, contains]

theorem applyArray_of_size {size : Nat} (number : Nat) (known : name ∈ t.namesOf .array)
    (read : size? sizeWord = some size) : applyArray t number name sizeWord more =
      { table := t.holdAll [(name, .array (write (Array.replicate size 0)
          (assignments name size number (numbers more)).1))],
        fault := (assignments name size number (numbers more)).2 } := by
  have small : size < Table.storageLimit := Nat.lt_trans (lt_of_size? read) (by decide)
  simp [applyArray, read, Table.allocate_of_mem known small, Table.holdAll, Table.hold_array,
    Table.updateSlots_updateSlots]

theorem exists_array_told (known : name ∈ t.namesOf .array) (slots : Array Int) :
    ∃ a, (t.holdAll [(name, .array slots)]).array? name = some a ∧ a.values = slots := by
  obtain ⟨a, found⟩ := Option.isSome_iff_exists.mp (Table.isSome_array?_iff.mpr known)
  refine ⟨{ a with values := slots }, ?_, rfl⟩
  rw [Table.holdAll, List.foldl_cons, List.foldl_nil, Table.hold_array, Table.array?_updateSlots,
    found, Option.map_some, if_pos rfl]

/-- The record of an array, by the characters of its line. A size that is no integer or negative is
refused before anything changes. Otherwise the array is filled, and that without a fault exactly if
the numbers are even in number, all integers, and those that are indices inside the array. -/
theorem apply_arrayRecord (number : Nat) (known : name ∈ t.namesOf .array)
    (split : words line = name :: sizeWord :: more) (solid : more ≠ []) :
    ((∀ size : Nat, ¬WritesInt32 sizeWord size) →
      apply t number (words line) = { table := t, fault := some (.notInteger sizeWord number) }) ∧
    ∀ size : Nat, WritesInt32 sizeWord size →
      Fills t name size number (pairUp (numbersOf line)) (apply t number (words line)) ∧
      ((apply t number (words line)).fault = none ↔
        (numbersOf line).length % 2 = 0 ∧
          (∀ number ∈ numbersOf line, ∃ value, WritesInt32 number value) ∧
          ∀ pair ∈ pairUp (numbersOf line), ∀ index, WritesInt32 pair.1 index →
            0 ≤ index ∧ index < size) := by
  rw [split, apply_eq_applyArray number known solid]
  constructor
  · intro bad
    have unread : size? sizeWord = none := by
      refine Option.eq_none_iff_forall_ne_some.mpr ?_
      intro size read
      exact bad size (size?_eq_some_iff.mp read)
    simp [applyArray, unread]
  · intro size written
    rw [applyArray_of_size number known (size?_eq_some_iff.mpr written), numbers_eq split]
    refine ⟨⟨rfl, Table.agreeBut_holdAll t (by simp), ?_⟩, ?_⟩
    · obtain ⟨before, assigned, ends⟩ := exists_assigns name size number (numbersOf line)
      obtain ⟨a, found, values⟩ := exists_array_told known
        (write (Array.replicate size 0) (assignments name size number (numbersOf line)).1)
      refine ⟨before, _, a, assigned, found, ?_, ?_, ends⟩
      · rw [ArrayVariable.size, values, size_write, Array.size_replicate]
      · intro slot inside
        rw [values]
        exact getElem?_write_replicate _ inside
    · rw [fault_assignments_eq_none_iff, exists_assigns_iff]

theorem apply_arrayRecord_odd :
    Fills { arrays := [{ name := "A" }] } "A" 2 1
      [("1", some "4"), ("+1", some "-07"), ("0", none)]
      (apply { arrays := [{ name := "A" }] } 1 (words "A 2 (1,4) +1 -07(0")) := by
  have split : words "A 2 (1,4) +1 -07(0" = "A" :: "2" :: ["(1,4)", "+1", "-07(0"] := by
    decide +kernel
  have pairs : pairUp (numbersOf "A 2 (1,4) +1 -07(0") =
      [("1", some "4"), ("+1", some "-07"), ("0", none)] := by
    decide +kernel
  have size : WritesInt32 "2" (2 : Nat) := size?_eq_some_iff.mp (by decide +kernel)
  exact pairs ▸ ((apply_arrayRecord 1 (by decide) split (by decide)).2 2 size).1

end Apply

end Record

end ArrayCalc
