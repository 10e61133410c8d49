import ArrayCalc.Proofs.Load.Reading

/-! Of a source a load sees, for each name that its table knows, the records of that name in their
order, and nothing else. Whether it succeeds and what it makes of the table are the same for any two
sources that agree on those. -/
namespace ArrayCalc

def sourceLines (source : String) : List String :=
  (source.toList.splitOn '\n').map String.ofList

def records (source : String) : List (List String) := (sourceLines source).map Record.words

def recordsOf (name : String) (rs : List (List String)) : List (List String) :=
  rs.filter fun words => words.head? = some name

theorem linesOfText_eq_map (source : String) :
    linesOfText source = (sourceLines source).map some := by
  simp [linesOfText, sourceLines]

variable (known : VariableKind → List String)

/-- A record that can be read to its end, or that is passed over. -/
def Faultless (words : List String) : Prop := (Record.read known 0 words).fault = none

/-- What records tell that can be read to their ends. -/
def toldBy (rs : List (List String)) : List (String × Content) :=
  rs.flatMap fun words => (Record.read known 0 words).told

theorem Record.read_eq_later (line : Nat) (words : List String) :
    read known line words = (read known 0 words).later line := by
  rw [← read_later, Nat.zero_add]

theorem told_read (line : Nat) (words : List String) :
    (Record.read known line words).told = (Record.read known 0 words).told := by
  rw [Record.read_eq_later]
  rfl

theorem fault_read_eq_none_iff {line : Nat} {words : List String} :
    (Record.read known line words).fault = none ↔ Faultless known words := by
  rw [Record.read_eq_later]
  exact Option.map_eq_none_iff

/-- A source has no fault if none of its records has, and tells what these tell then. -/
theorem readLines_map_some (line : Nat) (lines : List String) :
    ((readLines known line (lines.map some)).fault = none ↔
        ∀ words ∈ lines.map Record.words, Faultless known words) ∧
      ((readLines known line (lines.map some)).fault = none →
        (readLines known line (lines.map some)).told = toldBy known (lines.map Record.words)) := by
  induction lines generalizing line with
  | nil => simp [readLines, toldBy]
  | cons text lines ih =>
    obtain ⟨faultless, told⟩ := ih (line + 1)
    cases fault : (Record.read known line (Record.words text)).fault with
    | some e =>
      have faulty : ¬ Faultless known (Record.words text) := by
        rw [← fault_read_eq_none_iff, fault]
        simp
      simp [readLines, readLine, Reading.andThen, fault, faulty]
    | none =>
      have here : Faultless known (Record.words text) := (fault_read_eq_none_iff known).mp fault
      simp only [List.map_cons, readLines, readLine, Reading.andThen, fault, List.forall_mem_cons,
        here, true_and, faultless]
      intro all
      rw [told (faultless.mpr all), told_read]
      rfl

theorem faultless_of_unknown {words : List String}
    (unknown : ∀ name ∈ words.head?, name ∉ known .scalar ++ known .array) :
    Faultless known words := by
  cases words with
  | nil => rfl
  | cons name rest =>
    rw [Faultless, Record.read_of_unknown known 0 rest (unknown name rfl)]

/-- Only the records of known names can have a fault. -/
theorem forall_faultless_iff (rs : List (List String)) :
    (∀ words ∈ rs, Faultless known words) ↔
      ∀ name ∈ known .scalar ++ known .array, ∀ words ∈ recordsOf name rs, Faultless known words := by
  constructor
  · intro all name _ words mem
    exact all words (List.mem_of_mem_filter mem)
  · intro all words mem
    by_cases unknown : ∀ name ∈ words.head?, name ∉ known .scalar ++ known .array
    · exact faultless_of_unknown known unknown
    · push Not at unknown
      obtain ⟨name, first, known'⟩ := unknown
      exact all name known' words (List.mem_filter.mpr ⟨mem, decide_eq_true first⟩)

/-- Only the records of a name tell it something. -/
theorem contentsTold_toldBy (kind : VariableKind) (name : String) (rs : List (List String)) :
    contentsTold kind name (toldBy known rs) =
      contentsTold kind name (toldBy known (recordsOf name rs)) := by
  induction rs with
  | nil => rfl
  | cons words rs ih =>
    have split : toldBy known (words :: rs) =
      (Record.read known 0 words).told ++ toldBy known rs := rfl
    by_cases first : words.head? = some name
    · have kept : recordsOf name (words :: rs) = words :: recordsOf name rs := by
        simp [recordsOf, first]
      rw [kept, split, contentsTold_append, ih, ← contentsTold_append]
      rfl
    · have dropped : recordsOf name (words :: rs) = recordsOf name rs := by
        simp [recordsOf, first]
      have nothing : contentsTold kind name (Record.read known 0 words).told = [] := by
        refine contentsTold_eq_nil ?_
        intro content mem
        exact absurd (Record.isFor_of_mem_told known mem).1 first
      rw [dropped, split, contentsTold_append, nothing, List.nil_append, ih]

namespace Table

variable {t : Table} {s s' : String}

theorem fault_loadText_eq_none_iff :
    (t.loadText s).fault = none ↔ ∀ words ∈ records s, Faultless t.namesOf words := by
  rw [loadText, loadLines_eq_read, linesOfText_eq_map]
  exact (readLines_map_some t.namesOf 1 (sourceLines s)).1

/-- A load without a fault gives its table what the records tell. -/
theorem table_loadText (faultless : (t.loadText s).fault = none) :
    (t.loadText s).table = t.holdAll (toldBy t.namesOf (records s)) := by
  rw [loadText, loadLines_eq_read, linesOfText_eq_map] at faultless ⊢
  rw [Reading.carryOut, (readLines_map_some t.namesOf 1 (sourceLines s)).2 faultless]
  rfl

/-- Two sources of which one loads without a fault just if the other does, to the same table then. -/
structure LoadAlike (t : Table) (s s' : String) : Prop where
  faultless_iff : (t.loadText s).fault = none ↔ (t.loadText s').fault = none
  table_eq : (t.loadText s).fault = none → (t.loadText s).table = (t.loadText s').table

theorem loadAlike_of_recordsOf
    (same : ∀ name ∈ t.names, recordsOf name (records s) = recordsOf name (records s')) :
    t.LoadAlike s s' := by
  have faultless : (t.loadText s).fault = none ↔ (t.loadText s').fault = none := by
    rw [fault_loadText_eq_none_iff, fault_loadText_eq_none_iff, forall_faultless_iff,
      forall_faultless_iff]
    refine forall₂_congr ?_
    intro name mem
    rw [same name mem]
  refine ⟨faultless, ?_⟩
  intro faultless'
  rw [table_loadText faultless', table_loadText (faultless.mp faultless')]
  refine holdAll_congr ?_
  intro kind name mem
  have mem' : name ∈ t.names := by
    cases kind with
    | scalar => exact List.mem_append_left _ mem
    | array => exact List.mem_append_right _ mem
  rw [contentsTold_toldBy, same name mem', ← contentsTold_toldBy]

end Table

/-- Records that are made of others by exchanging neighbours of different names, and by putting in
or taking out records of none of the given names. -/
inductive Rearranges (names : List String) : List (List String) → List (List String) → Prop where
  | refl (rs : List (List String)) : Rearranges names rs rs
  | symm {rs rs' : List (List String)} (h : Rearranges names rs rs') : Rearranges names rs' rs
  | trans {rs rs' rs'' : List (List String)} (h : Rearranges names rs rs')
      (h' : Rearranges names rs' rs'') : Rearranges names rs rs''
  | exchange (before : List (List String)) {a b : List String} (after : List (List String))
      (apart : a.head? ≠ b.head?) :
      Rearranges names (before ++ a :: b :: after) (before ++ b :: a :: after)
  | insert (before : List (List String)) {a : List String} (after : List (List String))
      (foreign : ∀ name ∈ a.head?, name ∉ names) :
      Rearranges names (before ++ after) (before ++ a :: after)

theorem Rearranges.recordsOf_eq {names : List String} {rs rs' : List (List String)}
    (h : Rearranges names rs rs') {name : String} (mem : name ∈ names) :
    recordsOf name rs = recordsOf name rs' := by
  induction h with
  | refl => rfl
  | symm _ ih => exact ih.symm
  | trans _ _ ih ih' => exact ih.trans ih'
  | @exchange before a b after apart =>
    by_cases first : a.head? = some name
    · have other : b.head? ≠ some name := fun second => apart (first.trans second.symm)
      simp [recordsOf, first, other]
    · simp [recordsOf, List.filter_cons, first]
  | @insert before a after foreign =>
    have other : a.head? ≠ some name := fun first => foreign name first mem
    simp [recordsOf, other]

namespace Table

/-- Sources with the same records of each name that the table knows, each in the same order, load
alike. So do sources that are rearranged without changing the order of the records of one name, and
with records put in or left out that are of no known name. -/
theorem loadText_by_names (t : Table) :
    (∀ s s', (∀ name ∈ t.names, recordsOf name (records s) = recordsOf name (records s')) →
        t.LoadAlike s s') ∧
      ∀ s s', Rearranges t.names (records s) (records s') → t.LoadAlike s s' := by
  refine ⟨fun s s' => loadAlike_of_recordsOf, ?_⟩
  intro s s' rearranges
  exact loadAlike_of_recordsOf fun name => rearranges.recordsOf_eq

/-- Records of two variables that take turns, and a record of a name that is not known. -/
theorem loadText_by_names_turns :
    Rearranges ["x", "A"] (records "x 1\nA 2 (0,7)\nx 2\r\ny z") (records "A 2  (0,7)\n\nx 1\nx 2") ∧
    LoadAlike { scalars := [⟨"x", 0⟩], arrays := [⟨"A", #[]⟩] }
      "x 1\nA 2 (0,7)\nx 2\r\ny z" "A 2  (0,7)\n\nx 1\nx 2" := by
  have read : records "x 1\nA 2 (0,7)\nx 2\r\ny z" =
      [["x", "1"], ["A", "2", "(0,7)"], ["x", "2"], ["y", "z"]] := by decide +kernel
  have read' : records "A 2  (0,7)\n\nx 1\nx 2" =
      [["A", "2", "(0,7)"], [], ["x", "1"], ["x", "2"]] := by decide +kernel
  have rearranges : Rearranges ["x", "A"] (records "x 1\nA 2 (0,7)\nx 2\r\ny z")
      (records "A 2  (0,7)\n\nx 1\nx 2") := by
    rw [read, read']
    refine .trans (.exchange [] _ (by decide)) ?_
    refine .trans (.insert [["A", "2", "(0,7)"]] _ (by simp : ∀ name ∈ ([] : List String).head?, _)) ?_
    exact .symm (.insert [["A", "2", "(0,7)"], [], ["x", "1"], ["x", "2"]] [] (by decide))
  exact ⟨rearranges,
    (loadText_by_names { scalars := [⟨"x", 0⟩], arrays := [⟨"A", #[]⟩] }).2 _ _ rearranges⟩

end Table

end ArrayCalc
