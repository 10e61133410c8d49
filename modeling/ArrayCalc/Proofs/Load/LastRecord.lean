import ArrayCalc.Proofs.Load.Names
import ArrayCalc.Proofs.Load.Records

/-! The last record of a variable decides what it holds after a load, whatever it held before and
whatever other records said. A second load of the same source finds everything in place. -/
namespace ArrayCalc

variable (known : VariableKind → List String) {kind : VariableKind} {name : String}

/-- A source tells nothing that none of its records is for, wherever it stops. -/
theorem contentsTold_readLines_eq_nil {s : String} (line : Nat)
    (none : ∀ words ∈ records s, ¬ Record.IsFor kind name words) :
    contentsTold kind name (readLines known line (linesOfText s)).told = [] := by
  refine contentsTold_eq_nil ?_
  rintro content told rfl
  obtain ⟨number, text, listed, told⟩ := exists_line_of_mem_told known told
  rw [linesOfText_eq_map] at listed
  obtain ⟨line, listed', rfl⟩ := List.mem_map.mp listed
  exact none _ (List.mem_map_of_mem listed') (Record.isFor_of_mem_told known told)

theorem contentsTold_toldBy_eq_nil {rs : List (List String)}
    (none : ∀ words ∈ rs, ¬ Record.IsFor kind name words) :
    contentsTold kind name (toldBy known rs) = [] := by
  refine contentsTold_eq_nil ?_
  rintro content told rfl
  obtain ⟨words, listed, told⟩ := List.mem_flatMap.mp told
  exact none words listed (Record.isFor_of_mem_told known told)

/-- What a variable is told last is what the last record for it tells. -/
theorem getLast?_contentsTold_toldBy {before after : List (List String)} {words : List String}
    {content : Content} (told : (Record.read known 0 words).told = [(name, content)])
    (suits : content.kind = kind) (last : ∀ words' ∈ after, ¬ Record.IsFor kind name words') :
    (contentsTold kind name (toldBy known (before ++ words :: after))).getLast? = some content := by
  have split : toldBy known (before ++ words :: after) =
      toldBy known before ++ ((name, content) :: toldBy known after) := by
    simp [toldBy, told]
  rw [split, contentsTold_append, ← List.singleton_append, contentsTold_append,
    contentsTold_singleton suits,
    contentsTold_toldBy_eq_nil known last, List.append_nil, List.getLast?_concat]

theorem exists_last_record {rs : List (List String)}
    (some : ∃ words ∈ rs, Record.IsFor kind name words) :
    ∃ before words after, rs = before ++ words :: after ∧ Record.IsFor kind name words ∧
      ∀ words' ∈ after, ¬ Record.IsFor kind name words' := by
  induction rs with
  | nil => simp at some
  | cons words rs ih =>
    by_cases later : ∃ words' ∈ rs, Record.IsFor kind name words'
    · obtain ⟨before, words', after, rfl, isFor, last⟩ := ih later
      exact ⟨words :: before, words', after, rfl, isFor, last⟩
    · obtain ⟨words', mem, isFor⟩ := some
      have first : words' = words := by
        rcases List.mem_cons.mp mem with first | mem'
        · exact first
        · exact absurd ⟨words', mem', isFor⟩ later
      subst first
      exact ⟨[], words', rs, rfl, isFor, fun words mem isFor => later ⟨words, mem, isFor⟩⟩

namespace Table

variable {t t' : Table} {s : String}

theorem loadText_eq_read (t : Table) (s : String) :
    t.loadText s = (readLines t.namesOf 1 (linesOfText s)).carryOut t :=
  loadLines_eq_read t 1 (linesOfText s)

theorem holdAll_holdAll (t : Table) (told : List (String × Content)) :
    (t.holdAll told).holdAll told = t.holdAll told := by
  rw [← holdAll_append]
  refine holdAll_congr ?_
  intro kind name _
  rw [contentsTold_append, List.getLast?_append]
  cases (contentsTold kind name told).getLast? <;> rfl

theorem namesOf_loadText (t : Table) (s : String) : (t.loadText s).table.namesOf = t.namesOf :=
  funext (namesOf_loadLines t 1 (linesOfText s))

theorem loadText_loadText (t : Table) (s : String) :
    (t.loadText s).table.loadText s = t.loadText s := by
  rw [loadText_eq_read (t.loadText s).table, namesOf_loadText, loadText_eq_read t]
  simp only [Reading.carryOut, holdAll_holdAll]

/-- After a load without a fault a variable holds what the last record for it tells. -/
theorem content?_loadText {before after : List (List String)} {words : List String}
    (faultless : (t.loadText s).fault = none) (split : records s = before ++ words :: after)
    (isFor : Record.IsFor kind name words)
    (last : ∀ words' ∈ after, ¬ Record.IsFor kind name words') (mem : name ∈ t.namesOf kind) :
    ∃ content, content.kind = kind ∧ (Record.read t.namesOf 0 words).told = [(name, content)] ∧
      (t.loadText s).table.content? name kind = some content := by
  have mem' : words ∈ records s := by simp [split]
  obtain ⟨content, suits, told⟩ := Record.told_of_isFor t.namesOf isFor mem
    (fault_loadText_eq_none_iff.mp faultless words mem')
  refine ⟨content, suits, told, ?_⟩
  rw [table_loadText faultless, split]
  exact content?_holdAll_of_told mem (getLast?_contentsTold_toldBy t.namesOf told suits last)

theorem content?_apply {words : List String} {content : Content} (line : Nat)
    (told : (Record.read t.namesOf 0 words).told = [(name, content)])
    (suits : content.kind = kind) (mem : name ∈ t.namesOf kind) :
    (Record.apply t line words).table.content? name kind = some content := by
  rw [Record.apply_eq_read, Reading.carryOut, told_read, told]
  refine content?_holdAll_of_told mem ?_
  rw [contentsTold_singleton suits, List.getLast?_singleton]

/-- A second load of a source changes nothing. The outcome of a load depends on the names of a table
only, and so does what a variable holds after a load without a fault if there is a record for it; a
variable without one keeps what it held. The record that counts is the last for that variable, and
it does what it does on its own. -/
theorem loadText_last_record (s : String) :
    (∀ t : Table, (t.loadText s).table.loadText s = t.loadText s) ∧
      (∀ t t' : Table, (∀ kind, t.namesOf kind = t'.namesOf kind) →
        (t.loadText s).fault = (t'.loadText s).fault ∧
          ((t.loadText s).fault = none →
            ∀ kind name, (∃ words ∈ records s, Record.IsFor kind name words) →
              (t.loadText s).table.content? name kind = (t'.loadText s).table.content? name kind)) ∧
      (∀ (t : Table) kind name, (∀ words ∈ records s, ¬ Record.IsFor kind name words) →
        (t.loadText s).table.content? name kind = t.content? name kind) ∧
      ∀ (t : Table) before words after kind name, (t.loadText s).fault = none →
        records s = before ++ words :: after → Record.IsFor kind name words →
        (∀ words' ∈ after, ¬ Record.IsFor kind name words') →
          (t.loadText s).table.content? name kind =
            (Record.apply t 1 words).table.content? name kind := by
  refine ⟨fun t => loadText_loadText t s, ?_, ?_, ?_⟩
  · intro t t' same
    have names : t.namesOf = t'.namesOf := funext same
    have faults : (t.loadText s).fault = (t'.loadText s).fault := by
      rw [loadText_eq_read, loadText_eq_read, names]
      rfl
    refine ⟨faults, ?_⟩
    intro faultless kind name some
    obtain ⟨before, words, after, split, isFor, last⟩ := exists_last_record some
    by_cases mem : name ∈ t.namesOf kind
    · obtain ⟨content, -, told, holds⟩ := content?_loadText faultless split isFor last mem
      obtain ⟨content', -, told', holds'⟩ :=
        content?_loadText (faults ▸ faultless) split isFor last (names ▸ mem)
      rw [← names, told] at told'
      obtain ⟨⟩ := told'
      rw [holds, holds']
    · rw [content?_eq_none_iff.mpr (by rwa [namesOf_loadText]),
        content?_eq_none_iff.mpr (by rwa [namesOf_loadText, ← names])]
  · intro t kind name none
    rw [loadText_eq_read, Reading.carryOut, content?_holdAll,
      contentsTold_readLines_eq_nil t.namesOf 1 none]
    exact Option.map_id'
  · intro t before words after kind name faultless split isFor last
    by_cases mem : name ∈ t.namesOf kind
    · obtain ⟨content, suits, told, holds⟩ := content?_loadText faultless split isFor last mem
      rw [holds, content?_apply 1 told suits mem]
    · rw [content?_eq_none_iff.mpr (by rwa [namesOf_loadText]),
        content?_eq_none_iff.mpr (by rwa [Record.apply_eq_read, Reading.carryOut, namesOf_holdAll])]

/-- An array that is told twice, with another size the second time, in two tables that hold different
things. -/
theorem loadText_last_record_sizes :
    Table.loadText { scalars := [⟨"x", 9⟩], arrays := [⟨"A", #[4, 4]⟩] } "A 3 (2,1)\nx 5\nA 1 (0,7)" =
        { table := { scalars := [⟨"x", 5⟩], arrays := [⟨"A", #[7]⟩] } } ∧
      Table.loadText { scalars := [⟨"x", 5⟩], arrays := [⟨"A", #[7]⟩] } "A 3 (2,1)\nx 5\nA 1 (0,7)" =
        { table := { scalars := [⟨"x", 5⟩], arrays := [⟨"A", #[7]⟩] } } ∧
      (Table.loadText { scalars := [⟨"x", 0⟩], arrays := [⟨"A", #[]⟩] }
          "A 3 (2,1)\nx 5\nA 1 (0,7)").table.content? "A" .array = some (.array #[7]) := by
  obtain ⟨again, others, -, -⟩ := loadText_last_record "A 3 (2,1)\nx 5\nA 1 (0,7)"
  have first : Table.loadText { scalars := [⟨"x", 9⟩], arrays := [⟨"A", #[4, 4]⟩] }
      "A 3 (2,1)\nx 5\nA 1 (0,7)" =
        { table := { scalars := [⟨"x", 5⟩], arrays := [⟨"A", #[7]⟩] } } := by decide +kernel
  have second := again { scalars := [⟨"x", 9⟩], arrays := [⟨"A", #[4, 4]⟩] }
  have some : ∃ words ∈ records "A 3 (2,1)\nx 5\nA 1 (0,7)", Record.IsFor .array "A" words :=
    ⟨["A", "1", "(0,7)"], by decide +kernel, rfl, rfl⟩
  have third := (others { scalars := [⟨"x", 9⟩], arrays := [⟨"A", #[4, 4]⟩] }
    { scalars := [⟨"x", 0⟩], arrays := [⟨"A", #[]⟩] } (by rintro (- | -) <;> rfl)).2
    (by rw [first]) .array "A" some
  rw [first] at second third
  exact ⟨first, second, third.symm⟩

end Table

end ArrayCalc
