import ArrayCalc.Proofs.Load.Composition
import ArrayCalc.Proofs.Text.Encoding

/-! Loading from bytes. The bytes are cut at line feeds and each line is decoded on its own, so a line
that is no text ends a load after the lines before it, and nothing behind the line of a fault
matters. Bytes that are a text load like that text, however its lines end. -/
namespace ArrayCalc

open Text

/-- Texts that consist of the given lines. A line ends with a line feed, or with a carriage return and
a line feed; the last line may go without. -/
inductive ConsistsOf : List String → String → Prop where
  | nil : ConsistsOf [] ""
  | last {line : String} (single : '\n' ∉ line.toList) : ConsistsOf [line] line
  | lineFeed {line text : String} {lines : List String} (single : '\n' ∉ line.toList)
      (rest : ConsistsOf lines text) : ConsistsOf (line :: lines) (line ++ "\n" ++ text)
  | carriageReturn {line text : String} {lines : List String} (single : '\n' ∉ line.toList)
      (rest : ConsistsOf lines text) : ConsistsOf (line :: lines) (line ++ "\r\n" ++ text)

def piecesOf (text : String) : List String := (text.toList.splitOn '\n').map String.ofList

theorem linesOfText_eq_pieces (text : String) : linesOfText text = (piecesOf text).map some := by
  simp [linesOfText, piecesOf]

theorem linesOfBytes_utf8 (text : String) : linesOfBytes (utf8 text) = linesOfText text := by
  simp only [linesOfBytes, splitOn_utf8, List.map_map, linesOfText]
  refine List.map_congr_left fun line _ => ?_
  exact fromUTF8?_utf8 (String.ofList line)

theorem linesOfText_of_single {line : String} (single : '\n' ∉ line.toList) :
    linesOfText line = [some line] := by
  simp [linesOfText, List.splitOn_eq_singleton single]

/-- The whitespace at the end of a line does not count. -/
theorem words_append_carriageReturn (line : String) :
    Record.words (line ++ "\r") = Record.words line := by
  have split := Text.words_append_separator line.toList [] (show isWhitespace '\r' = true by decide)
  rw [Text.words_nil, List.append_nil] at split
  rw [Record.words, String.toList_append]
  exact congrArg (List.map String.ofList) split

/-- Lines that are all text, or those before the first that is not. -/
theorem all_text_or_broken (pieces : List (List UInt8)) :
    (∃ lines : List String, pieces = lines.map utf8) ∨
      ∃ (before : List String) (broken : List UInt8) (after : List (List UInt8)),
        pieces = before.map utf8 ++ broken :: after ∧ ∀ text, utf8 text ≠ broken := by
  induction pieces with
  | nil => exact .inl ⟨[], rfl⟩
  | cons piece pieces ih =>
    by_cases text : ∃ text, utf8 text = piece
    · obtain ⟨text, rfl⟩ := text
      obtain ⟨lines, rfl⟩ | ⟨before, broken, after, rfl, none⟩ := ih
      · exact .inl ⟨text :: lines, rfl⟩
      · exact .inr ⟨text :: before, broken, after, rfl, none⟩
    · exact .inr ⟨[], piece, pieces, rfl, not_exists.mp text⟩

theorem map_fromUTF8?_utf8 (lines : List String) :
    (lines.map utf8).map (fun line => String.fromUTF8? line.toByteArray) = lines.map some := by
  rw [List.map_map]
  exact List.map_congr_left fun line _ => fromUTF8?_utf8 line

namespace Table

/-- Applies lines as records one after the other, counted from one, up to the first fault. -/
def applyLines (t : Table) (lines : List String) : Loaded :=
  (lines.zipIdx 1).foldl
    (fun loaded entry => loaded.andThen fun t' => Record.apply t' entry.2 (Record.words entry.1))
    { table := t }

theorem andThen_loadLines (loaded : Loaded) (line : Nat) (lines : List String) :
    (loaded.andThen fun t => t.loadLines line (lines.map some)) =
      (lines.zipIdx line).foldl
        (fun loaded entry =>
          loaded.andThen fun t' => Record.apply t' entry.2 (Record.words entry.1))
        loaded := by
  induction lines generalizing loaded line with
  | nil =>
    obtain ⟨t, notices, fault⟩ := loaded
    cases fault <;> simp [Loaded.andThen, loadLines]
  | cons text lines ih =>
    rw [List.zipIdx_cons, List.foldl_cons, ← ih, Loaded.andThen_assoc]
    rfl

theorem loadLines_eq_applyLines (t : Table) (lines : List String) :
    t.loadLines 1 (lines.map some) = t.applyLines lines :=
  andThen_loadLines { table := t } 1 lines

theorem line?_of_apply {t : Table} {line : Nat} {words : List String} {e : LoadError}
    (h : (Record.apply t line words).fault = some e) : e.line? = some line := by
  rw [Record.apply_eq_read] at h
  exact Record.line?_of_read t.namesOf h

/-- A load that ends in a fault ends at one line, whatever comes after that line. -/
theorem exists_of_fault_loadLines {t : Table} {line : Nat} {lines : List (Option String)}
    {e : LoadError} (h : (t.loadLines line lines).fault = some e) :
    ∃ before text after, lines = before ++ text :: after ∧
      (e.line? = some (line + before.length) ∨
        e = .unreadable .invalidEncoding ∧ text = none) ∧
      ∀ rest, t.loadLines line (before ++ text :: rest) = t.loadLines line lines := by
  induction lines generalizing t line with
  | nil => simp [loadLines] at h
  | cons text lines ih =>
    cases text with
    | none =>
      obtain rfl := Option.some.inj h
      exact ⟨[], none, lines, rfl, .inr ⟨rfl, rfl⟩, fun rest => rfl⟩
    | some text =>
      rw [loadLines_cons] at h
      cases fault : (Record.apply t line (Record.words text)).fault with
      | some e' =>
        have stops := fun next => Loaded.andThen_of_fault next fault
        obtain rfl : e' = e := by simpa [stops, fault] using h
        refine ⟨[], some text, lines, rfl, .inl (line?_of_apply fault), ?_⟩
        intro rest
        rw [List.nil_append, loadLines_cons, loadLines_cons, stops, stops]
      | none =>
        have goesOn : ∀ next, ((Record.apply t line (Record.words text)).andThen next).fault =
            (next (Record.apply t line (Record.words text)).table).fault := by
          simp [Loaded.andThen, fault]
        rw [goesOn] at h
        obtain ⟨before, text', after, rfl, found, same⟩ := ih h
        refine ⟨some text :: before, text', after, rfl, ?_, ?_⟩
        · rwa [List.length_cons, Nat.add_comm before.length, ← Nat.add_assoc]
        · intro rest
          simp only [List.cons_append, loadLines_cons, Loaded.andThen, fault, same]

/-- Lines that are text are no reason to stop reading. -/
theorem fault_applyLines_ne_unreadable (t : Table) (lines : List String) (failure : ReadFailure) :
    (t.applyLines lines).fault ≠ some (.unreadable failure) := by
  intro fault
  rw [← loadLines_eq_applyLines] at fault
  obtain ⟨before, text, after, split, found | ⟨-, rfl⟩, -⟩ := exists_of_fault_loadLines fault
  · simp [LoadError.line?] at found
  · have mem : none ∈ lines.map some := by simp [split]
    simp at mem

/-- How the lines of a text end does not matter, nor whether the last one ends at all. -/
theorem loadLines_of_consistsOf {lines : List String} {text : String} (h : ConsistsOf lines text)
    (t : Table) (line : Nat) :
    t.loadLines line (linesOfText text) = t.loadLines line (lines.map some) := by
  induction h generalizing t line with
  | nil => rfl
  | last single => rw [linesOfText_of_single single]; rfl
  | lineFeed single rest ih =>
    rw [linesOfText_newline, linesOfText_of_single single]
    simp only [List.singleton_append, List.map_cons, loadLines_cons, ih]
  | @carriageReturn text _ _ single rest ih =>
    have single' : '\n' ∉ (text ++ "\r").toList := by simpa using single
    have ending : text ++ "\r\n" = text ++ "\r" ++ "\n" := by
      rw [String.append_assoc]
      rfl
    rw [ending, linesOfText_newline, linesOfText_of_single single']
    simp only [List.singleton_append, List.map_cons, loadLines_cons, ih,
      words_append_carriageReturn]

variable {t : Table} {bytes : List UInt8}

/-- Lines that are all text are applied as records. -/
theorem loadBytes_of_text {lines : List String} (split : bytes.splitOn 10 = lines.map utf8) :
    t.loadBytes bytes = t.applyLines lines := by
  rw [loadBytes, linesOfBytes, split, map_fromUTF8?_utf8, loadLines_eq_applyLines]

/-- A line that is no text ends a load after what the lines before it say. -/
theorem loadBytes_of_broken {before : List String} {broken : List UInt8} {after : List (List UInt8)}
    (split : bytes.splitOn 10 = before.map utf8 ++ broken :: after)
    (none : ∀ text, utf8 text ≠ broken) :
    t.loadBytes bytes = (t.applyLines before).andThen fun t' =>
      { table := t', fault := some (.unreadable .invalidEncoding) } := by
  rw [loadBytes, linesOfBytes, split, List.map_append, map_fromUTF8?_utf8, List.map_cons,
    fromUTF8?_eq_none_iff.mpr none, loadLines_append, loadLines_eq_applyLines]
  rfl

theorem loadBytes_utf8 (t : Table) (text : String) : t.loadBytes (utf8 text) = t.loadText text := by
  rw [loadBytes, linesOfBytes_utf8, loadText]

theorem loadText_eq_applyLines (t : Table) (text : String) :
    t.loadText text = t.applyLines (piecesOf text) := by
  rw [loadText, linesOfText_eq_pieces, loadLines_eq_applyLines]

theorem exists_of_fault_loadBytes {e : LoadError} (h : (t.loadBytes bytes).fault = some e) :
    ∃ before piece, before ++ [piece] <+: bytes.splitOn 10 ∧
      (e.line? = some (before.length + 1) ∨
        e = .unreadable .invalidEncoding ∧ ∀ text, utf8 text ≠ piece) ∧
      ∀ bytes', before ++ [piece] <+: bytes'.splitOn 10 → t.loadBytes bytes' = t.loadBytes bytes := by
  obtain ⟨before, line, after, split, found, same⟩ := exists_of_fault_loadLines h
  obtain ⟨pieces, rest, split', rfl, others⟩ := List.map_eq_append_iff.mp split
  obtain ⟨piece, rest, rfl, rfl, rfl⟩ := List.map_eq_cons_iff.mp others
  refine ⟨pieces, piece, ⟨rest, by simp [split']⟩, ?_, ?_⟩
  · rw [List.length_map, Nat.add_comm, fromUTF8?_eq_none_iff] at found
    exact found
  · rintro bytes' ⟨rest', split''⟩
    have lines : linesOfBytes bytes' = pieces.map (fun line => String.fromUTF8? line.toByteArray) ++
        String.fromUTF8? piece.toByteArray ::
          rest'.map fun line => String.fromUTF8? line.toByteArray := by
      simp [linesOfBytes, ← split'']
    rw [loadBytes, lines, same]
    rfl

/-- Bytes that load without a fault are a text. -/
theorem exists_text_of_faultless (h : (t.loadBytes bytes).fault = none) :
    ∃ text, bytes = utf8 text := by
  obtain ⟨lines, split⟩ | ⟨before, broken, after, split, none⟩ :=
    all_text_or_broken (bytes.splitOn 10)
  · refine ⟨"\n".intercalate lines, ?_⟩
    rw [utf8_intercalate_newline, ← split, List.intercalate_splitOn]
  · rw [loadBytes_of_broken split none] at h
    cases fault : (t.applyLines before).fault with
    | none => simp [Loaded.andThen, fault] at h
    | some e => simp [Loaded.andThen, fault] at h

/-- Bytes are loaded line by line. They are all text, and applied as records, or the first line that
is no text ends the load with what the lines before it say. A load that ends in a fault ends at one
line, and bytes that start with the same lines up to that one load the same. Bytes that are a text
never end a load on their own, and load as the lines that the text consists of. -/
theorem loadBytes_by_lines (t : Table) :
    (∀ bytes,
      (∃ lines, bytes.splitOn 10 = lines.map utf8 ∧ t.loadBytes bytes = t.applyLines lines) ∨
      ∃ before broken after, bytes.splitOn 10 = before.map utf8 ++ broken :: after ∧
        (∀ text, utf8 text ≠ broken) ∧
        t.loadBytes bytes = (t.applyLines before).andThen fun t' =>
          { table := t', fault := some (.unreadable .invalidEncoding) }) ∧
    (∀ bytes e, (t.loadBytes bytes).fault = some e →
      ∃ before piece, before ++ [piece] <+: bytes.splitOn 10 ∧
        (e.line? = some (before.length + 1) ∨
          e = .unreadable .invalidEncoding ∧ ∀ text, utf8 text ≠ piece) ∧
        ∀ bytes', before ++ [piece] <+: bytes'.splitOn 10 → t.loadBytes bytes' = t.loadBytes bytes) ∧
    ∀ text,
      (∀ failure, (t.loadBytes (utf8 text)).fault ≠ some (.unreadable failure)) ∧
      t.loadBytes (utf8 text) = t.applyLines (piecesOf text) ∧
      ∀ lines, ConsistsOf lines text → t.loadBytes (utf8 text) = t.applyLines lines := by
  refine ⟨?_, fun _ _ => exists_of_fault_loadBytes, ?_⟩
  · intro bytes
    obtain ⟨lines, split⟩ | ⟨before, broken, after, split, none⟩ :=
      all_text_or_broken (bytes.splitOn 10)
    · exact .inl ⟨lines, split, loadBytes_of_text split⟩
    · exact .inr ⟨before, broken, after, split, none, loadBytes_of_broken split none⟩
  · intro text
    have whole : t.loadBytes (utf8 text) = t.applyLines (piecesOf text) := by
      rw [loadBytes_utf8, loadText_eq_applyLines]
    refine ⟨?_, whole, ?_⟩
    · intro failure
      rw [whole]
      exact fault_applyLines_ne_unreadable t _ failure
    · intro lines consists
      rw [loadBytes_utf8, loadText, loadLines_of_consistsOf consists, loadLines_eq_applyLines]

/-- Lines that end in two ways, and a line that is no text behind one that is. -/
theorem loadBytes_by_lines_endings :
    (ConsistsOf ["x 5", "A 2 (1,7)"] "x 5\r\nA 2 (1,7)\n" ∧
      Table.loadBytes { scalars := [⟨"x", 1⟩], arrays := [⟨"A", #[]⟩] }
          (utf8 "x 5\r\nA 2 (1,7)\n") =
        { table := { scalars := [⟨"x", 5⟩], arrays := [⟨"A", #[0, 7]⟩] } }) ∧
    Table.loadBytes { scalars := [⟨"x", 1⟩], arrays := [⟨"A", #[]⟩] }
        [120, 32, 53, 10, 65, 255, 10, 120, 32, 57] =
      { table := { scalars := [⟨"x", 5⟩], arrays := [⟨"A", #[]⟩] },
        fault := some (.unreadable .invalidEncoding) } := by
  obtain ⟨-, -, texts⟩ := loadBytes_by_lines { scalars := [⟨"x", 1⟩], arrays := [⟨"A", #[]⟩] }
  have consists : ConsistsOf ["x 5", "A 2 (1,7)"] "x 5\r\nA 2 (1,7)\n" :=
    .carriageReturn (by decide) (.lineFeed (by decide) .nil)
  refine ⟨⟨consists, ?_⟩, by decide +kernel⟩
  rw [(texts _).2.2 _ consists]
  decide +kernel

end Table

end ArrayCalc
