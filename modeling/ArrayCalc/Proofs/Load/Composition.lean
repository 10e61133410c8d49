import ArrayCalc.Proofs.Load.Reading

/-! Loads compose. A source that is made of two, with a line feed between them, loads like the first
and then the second, and a load that stops has done what the lines before the fault say, and
something to one variable at most. -/
namespace ArrayCalc

namespace Loaded

def andThen (first : Loaded) (next : Table → Loaded) : Loaded :=
  match first.fault with
  | some _ => first
  | none =>
    let others := next first.table
    { others with notices := first.notices ++ others.notices }

def later (lines : Nat) (l : Loaded) : Loaded :=
  { l with notices := l.notices.map (.later lines), fault := l.fault.map (.later lines) }

theorem andThen_of_fault {first : Loaded} (next : Table → Loaded) {e : LoadError}
    (h : first.fault = some e) : first.andThen next = first := by
  simp [andThen, h]

theorem andThen_assoc (first : Loaded) (next last : Table → Loaded) :
    (first.andThen next).andThen last = first.andThen fun t => (next t).andThen last := by
  obtain ⟨t, notices, fault⟩ := first
  cases fault with
  | some e => rfl
  | none =>
    simp only [andThen]
    obtain ⟨t', notices', fault'⟩ := next t
    cases fault' <;> simp

theorem later_andThen (first : Loaded) (next : Table → Loaded) (lines : Nat) :
    (first.andThen next).later lines = (first.later lines).andThen fun t => (next t).later lines := by
  obtain ⟨t, notices, fault⟩ := first
  cases fault <;> simp [andThen, later]

end Loaded

namespace Table

theorem apply_later (t : Table) (line later : Nat) (words : List String) :
    Record.apply t (line + later) words = (Record.apply t line words).later later := by
  rw [Record.apply_eq_read, Record.apply_eq_read, Record.read_later]
  rfl

theorem loadLines_cons (t : Table) (line : Nat) (text : String) (rest : List (Option String)) :
    t.loadLines line (some text :: rest) =
      (Record.apply t line (Record.words text)).andThen fun t' => t'.loadLines (line + 1) rest :=
  rfl

theorem loadLines_append (t : Table) (line : Nat) (lines others : List (Option String)) :
    t.loadLines line (lines ++ others) =
      (t.loadLines line lines).andThen fun t' => t'.loadLines (line + lines.length) others := by
  induction lines generalizing t line with
  | nil => rfl
  | cons text lines ih =>
    cases text with
    | none => rfl
    | some text =>
      simp only [List.cons_append, loadLines_cons, ih, Loaded.andThen_assoc, List.length_cons,
        Nat.add_right_comm, ← Nat.add_assoc]

/-- Lines say the same further down in a source, but for their numbers. -/
theorem loadLines_later (t : Table) (line later : Nat) (lines : List (Option String)) :
    t.loadLines (line + later) lines = (t.loadLines line lines).later later := by
  induction lines generalizing t line with
  | nil => rfl
  | cons text lines ih =>
    cases text with
    | none => rfl
    | some text =>
      simp only [loadLines_cons, apply_later, Loaded.later_andThen, Nat.add_right_comm line later, ih]

theorem linesOfText_newline (s s' : String) :
    linesOfText (s ++ "\n" ++ s') = linesOfText s ++ linesOfText s' := by
  have newline : (s ++ "\n" ++ s').toList = s.toList ++ '\n' :: s'.toList := by simp
  rw [linesOfText, newline, List.splitOn_append_cons_self, List.map_append]
  rfl

theorem length_linesOfText (s : String) :
    (linesOfText s).length = s.toList.count '\n' + 1 := by
  rw [linesOfText, List.length_map]
  induction s.toList with
  | nil => rfl
  | cons c cs ih =>
    rw [List.splitOn_cons_eq_if_modifyHead, List.count_cons]
    split <;> simp [ih]

/-- A source and then another, with a line feed between them. -/
theorem loadText_newline (t : Table) (s s' : String) :
    t.loadText (s ++ "\n" ++ s') =
      (t.loadText s).andThen fun t' => (t'.loadText s').later (s.toList.count '\n' + 1) := by
  simp only [loadText, linesOfText_newline, loadLines_append, length_linesOfText, loadLines_later]

/-- Sources that load one after the other without a fault, and the table that they make. -/
inductive LoadsAll : Table → List String → Table → Prop where
  | nil {t : Table} : LoadsAll t [] t
  | cons {t t' : Table} {s : String} {sources : List String} (faultless : (t.loadText s).fault = none)
      (rest : LoadsAll (t.loadText s).table sources t') : LoadsAll t (s :: sources) t'

theorem loadsAll_cons_iff {t t' : Table} {s : String} {sources : List String} :
    LoadsAll t (s :: sources) t' ↔
      (t.loadText s).fault = none ∧ LoadsAll (t.loadText s).table sources t' := by
  constructor
  · rintro (- | ⟨faultless, rest⟩)
    exact ⟨faultless, rest⟩
  · rintro ⟨faultless, rest⟩
    exact .cons faultless rest

/-- Sources load one after the other just as they load joined by line feeds. -/
theorem loadsAll_iff {t t' : Table} {sources : List String} :
    LoadsAll t sources t' ↔
      (t.loadText ("\n".intercalate sources)).fault = none ∧
        (t.loadText ("\n".intercalate sources)).table = t' := by
  induction sources generalizing t with
  | nil =>
    constructor
    · rintro ⟨⟩
      exact ⟨rfl, rfl⟩
    · rintro ⟨-, rfl⟩
      exact .nil
  | cons s sources ih =>
    rw [loadsAll_cons_iff, ih]
    cases sources with
    | nil =>
      rw [String.intercalate_nil, String.intercalate_singleton]
      have blank : (t.loadText s).table.loadText "" = { table := (t.loadText s).table } := rfl
      simp [blank]
    | cons s' sources =>
      rw [String.intercalate_cons_cons, loadText_newline]
      cases fault : (t.loadText s).fault with
      | some e => simp [Loaded.andThen, fault]
      | none => simp [Loaded.andThen, fault, Loaded.later]

/-- A load that stops at a record has done what the lines before that record say, and something to
the variable that the record names at most. -/
theorem agreeBut_of_fault {t : Table} {s : String} {e : LoadError}
    (h : (t.loadText s).fault = some e) :
    ∃ before line after name, linesOfText s = before ++ some line :: after ∧
      (Record.words line).head? = some name ∧ e.line? = some (before.length + 1) ∧
      (t.loadLines 1 before).fault = none ∧
      (t.loadLines 1 before).table.AgreeBut name (t.loadText s).table := by
  rw [loadText, loadLines_eq_read] at h
  obtain ⟨before, text, after, split, faultless, found, told⟩ := exists_of_fault_readLines _ h
  obtain ⟨line, rfl⟩ : ∃ line, text = some line := by
    have mem : text ∈ linesOfText s := by simp [split]
    obtain ⟨line, -, rfl⟩ := List.mem_map.mp mem
    exact ⟨_, rfl⟩
  have number := Record.line?_of_read _ found
  cases words : Record.words line with
  | nil => simp [readLine, words, Record.read] at found
  | cons name rest =>
    refine ⟨before, line, after, name, split, by simp [words], ?_, ?_, ?_⟩
    · rwa [Nat.add_comm] at number
    · rwa [loadLines_eq_read]
    · rw [loadText, loadLines_eq_read, loadLines_eq_read, Reading.carryOut, Reading.carryOut, told,
        holdAll_append]
      refine agreeBut_holdAll _ ?_
      intro entry mem
      have named := (Record.isFor_of_mem_told _ mem).1
      simpa [words, eq_comm] using named

/-- What comes after a fault is not loaded, and what comes after a source without one is loaded as
if on its own, but for the numbers of its lines. So sources one after the other make the table that
they make when joined by line feeds. A fault on a line leaves the work of the lines before it, but
for the variable that the line names. -/
theorem loadText_composes (t : Table) :
    (∀ s s' e, (t.loadText s).fault = some e → t.loadText (s ++ "\n" ++ s') = t.loadText s) ∧
      (∀ s s', (t.loadText s).fault = none →
        (t.loadText (s ++ "\n" ++ s')).table = ((t.loadText s).table.loadText s').table ∧
        (t.loadText (s ++ "\n" ++ s')).fault =
          ((t.loadText s).table.loadText s').fault.map (.later (s.toList.count '\n' + 1))) ∧
      (∀ sources t', LoadsAll t sources t' ↔
        (t.loadText ("\n".intercalate sources)).fault = none ∧
          (t.loadText ("\n".intercalate sources)).table = t') ∧
      ∀ s e, (t.loadText s).fault = some e →
        ∃ before line after name, linesOfText s = before ++ some line :: after ∧
          (Record.words line).head? = some name ∧ e.line? = some (before.length + 1) ∧
          (t.loadLines 1 before).fault = none ∧
          (t.loadLines 1 before).table.AgreeBut name (t.loadText s).table := by
  refine ⟨?_, ?_, fun _ _ => loadsAll_iff, fun _ _ => agreeBut_of_fault⟩
  · intro s s' e fault
    rw [loadText_newline, Loaded.andThen_of_fault _ fault]
  · intro s s' faultless
    rw [loadText_newline, Loaded.andThen, faultless]
    exact ⟨rfl, rfl⟩

/-- A source that stops within the pairs of an array, and one that ends with a line feed. -/
theorem loadText_composes_faults :
    ((Table.loadText { scalars := [⟨"x", 1⟩], arrays := [⟨"A", #[]⟩] } "A 2 (0,7) (1").fault =
        some (.incomplete "A" 1) ∧
      Table.loadText { scalars := [⟨"x", 1⟩], arrays := [⟨"A", #[]⟩] }
          ("A 2 (0,7) (1" ++ "\n" ++ "x 9") =
        Table.loadText { scalars := [⟨"x", 1⟩], arrays := [⟨"A", #[]⟩] } "A 2 (0,7) (1") ∧
    ((Table.loadText { scalars := [⟨"x", 1⟩], arrays := [⟨"A", #[]⟩] } "x 5\r\n").fault = none ∧
      (Table.loadText { scalars := [⟨"x", 1⟩], arrays := [⟨"A", #[]⟩] }
          ("x 5\r\n" ++ "\n" ++ "A 1 (0,3)\nx y")).fault = some (.notInteger "y" 4)) := by
  obtain ⟨stops, goesOn, -, -⟩ :=
    loadText_composes { scalars := [⟨"x", 1⟩], arrays := [⟨"A", #[]⟩] }
  have fault : (Table.loadText { scalars := [⟨"x", 1⟩], arrays := [⟨"A", #[]⟩] }
      "A 2 (0,7) (1").fault = some (.incomplete "A" 1) := by decide +kernel
  have faultless : (Table.loadText { scalars := [⟨"x", 1⟩], arrays := [⟨"A", #[]⟩] }
      "x 5\r\n").fault = none := by decide +kernel
  refine ⟨⟨fault, stops _ _ _ fault⟩, faultless, ?_⟩
  rw [(goesOn _ "A 1 (0,3)\nx y" faultless).2]
  decide +kernel

end Table

end ArrayCalc
