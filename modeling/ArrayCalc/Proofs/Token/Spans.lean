import Mathlib.Data.List.Sort
import ArrayCalc.Proofs.Token.Places

/-! The lexemes of a text, described without cutting it. Each takes the bytes that spell its token,
in order and apart from each other, and what they leave over is blank. There is one such list. -/
namespace ArrayCalc

open Text

/-- For each byte of a text in UTF-8, the character that it belongs to. -/
def Text.byteOwners (text : List Char) : List Char :=
  text.flatMap fun c => List.replicate c.utf8Size c

/-- The token that characters spell where they stand, between `before` and `after`. -/
inductive Spells (before after : List Char) : List Char → Token → Prop where
  | integer {run : List Char} (digits : LongestRun Char.isDigit before run after)
      (fits : Nat.ofDigitChars 10 run 0 ≤ Token.integerLimit) :
      Spells before after run (.integer (Nat.ofDigitChars 10 run 0))
  | oversized {run : List Char} (digits : LongestRun Char.isDigit before run after)
      (exceeds : Token.integerLimit < Nat.ofDigitChars 10 run 0) :
      Spells before after run (.oversized (String.ofList run))
  | identifier {run : List Char} (letters : LongestRun Char.isAlpha before run after) :
      Spells before after run (.identifier (String.ofList run))
  | operator (op : Operator) : Spells before after [op.symbol] (.operator op)
  | opening (bracket : Bracket) : Spells before after [bracket.opening] (.opening bracket)
  | closing (bracket : Bracket) : Spells before after [bracket.closing] (.closing bracket)
  | foreign {c : Char} (foreign : IsForeign c) : Spells before after [c] (.foreign c)

/-- The bytes from `start` up to but not including `stop` are whole characters of the text and spell
the token. -/
def SpelledAt (text : String) (start stop : Nat) (token : Token) : Prop :=
  ∃ before run after, text.toList = before ++ run ++ after ∧ byteLength before = start ∧
    start + byteLength run = stop ∧ Spells before after run token

/-- A list of lexemes that loses nothing of a text: their spans hold some bytes of the text each,
one after the other, each holds the token that its bytes spell and no other, and the characters
outside of them are the blanks. -/
structure Lexing (text : String) (ls : List Lexeme) : Prop where
  solid : ∀ l ∈ ls, l.start < l.stop
  inside : ∀ l ∈ ls, l.stop ≤ text.utf8ByteSize
  ordered : ls.Pairwise fun l l' => l.stop ≤ l'.start
  spelled : ∀ l ∈ ls, ∀ token, l.token = token ↔ SpelledAt text l.start l.stop token
  blank : ∀ byte c, (byteOwners text.toList)[byte]? = some c →
    (isBlank c = true ↔ ∀ l ∈ ls, ¬(l.start ≤ byte ∧ byte < l.stop))

section Bytes

theorem byteLength_toList (text : String) : byteLength text.toList = text.utf8ByteSize := by
  have bytes : ∀ chars : List Char, byteLength chars = (String.ofList chars).utf8ByteSize := by
    intro chars
    induction chars with
    | nil => rfl
    | cons c chars ih =>
      rw [String.ofList_cons, String.utf8ByteSize_append, String.utf8ByteSize_singleton, ← ih]
      rfl
  rw [bytes, String.ofList_toList]

theorem byteLength_pos {run : List Char} (solid : run ≠ []) : 0 < byteLength run := by
  obtain ⟨c, run, rfl⟩ := List.exists_cons_of_ne_nil solid
  have wide := c.utf8Size_pos
  simp only [byteLength, List.foldr_cons]
  omega

theorem length_byteOwners (text : List Char) : (byteOwners text).length = byteLength text := by
  induction text with
  | nil => rfl
  | cons c text ih =>
    simp only [byteOwners, List.flatMap_cons, List.length_append, List.length_replicate,
      byteLength, List.foldr_cons] at ih ⊢
    rw [ih]

theorem byteOwners_append (before after : List Char) :
    byteOwners (before ++ after) = byteOwners before ++ byteOwners after :=
  List.flatMap_append

theorem mem_of_getElem?_byteOwners {text : List Char} {byte : Nat} {c : Char}
    (h : (byteOwners text)[byte]? = some c) : c ∈ text := by
  obtain ⟨d, mem, owner⟩ := List.mem_flatMap.mp (List.mem_of_getElem? h)
  exact (List.mem_replicate.mp owner).2 ▸ mem

end Bytes

section Spelling

variable {before run after : List Char} {token : Token}

theorem LongestRun.stands {p : Char → Bool} (joins : ∀ a, p a = true → ∀ b, joinsRun a b = p b)
    (h : LongestRun p before run after) : Stands (before ++ run ++ after) before run after :=
  have ⟨left, right⟩ := h.parted joinsRun_comm joins
  ⟨rfl, left, right⟩

/-- A character of no class stands apart from all others. -/
theorem stands_symbol {c : Char} (digit : c.isDigit = false) (letter : c.isAlpha = false) :
    Stands (before ++ [c] ++ after) before [c] after := by
  refine ⟨rfl, ?_, ?_⟩ <;> simp +contextual [joinsRun, digit, letter]

theorem Spells.reads (h : Spells before after run token) : Reads run (some token) := by
  cases h with
  | integer digits fits =>
    have read : Token.ofDigits run = .integer (Nat.ofDigitChars 10 run 0) := if_pos fits
    exact read ▸ .digits digits.inside digits.solid
  | oversized digits exceeds =>
    have read : Token.ofDigits run = .oversized (String.ofList run) :=
      if_neg (Nat.not_le.mpr exceeds)
    exact read ▸ .digits digits.inside digits.solid
  | identifier letters => exact .letters letters.inside letters.solid
  | operator op => cases op <;> exact .symbol rfl rfl rfl
  | opening bracket => cases bracket <;> exact .symbol rfl rfl rfl
  | closing bracket => cases bracket <;> exact .symbol rfl rfl rfl
  | @foreign c foreign =>
    obtain ⟨blank, digit, letter, other⟩ := foreign
    have read : Token.ofSymbol c = .foreign c := by
      simp only [List.mem_cons, List.not_mem_nil, or_false, not_or] at other
      simp [Token.ofSymbol, other]
    exact read ▸ .symbol blank digit letter

/-- Characters that spell a token do not join those around them. -/
theorem Spells.stands (h : Spells before after run token) :
    Stands (before ++ run ++ after) before run after := by
  cases h with
  | integer digits | oversized digits => exact digits.stands fun _ => joinsRun_of_isDigit
  | identifier letters => exact letters.stands fun _ => joinsRun_of_isAlpha
  | operator op => cases op <;> exact stands_symbol rfl rfl
  | opening bracket => cases bracket <;> exact stands_symbol rfl rfl
  | closing bracket => cases bracket <;> exact stands_symbol rfl rfl
  | foreign foreign => exact stands_symbol foreign.2.1 foreign.2.2.1

theorem spells_ofSymbol {c : Char} (blank : isBlank c = false) (digit : c.isDigit = false)
    (letter : c.isAlpha = false) : Spells before after [c] (Token.ofSymbol c) := by
  unfold Token.ofSymbol
  split
  · exact .operator .add
  · exact .operator .sub
  · exact .operator .mul
  · exact .operator .div
  · exact .opening .paren
  · exact .closing .paren
  · exact .opening .square
  · exact .closing .square
  · refine .foreign ⟨blank, digit, letter, ?_⟩
    simp_all

/-- What is read from a run of a text is what the run spells there. -/
theorem Reads.spells {text : List Char} (h : Reads run (some token))
    (stands : Stands text before run after) : Spells before after run token := by
  cases h with
  | digits digits solid =>
    have longest := stands.longestRun (fun _ => joinsRun_of_isDigit) solid digits
    simp only [Token.ofDigits]
    split
    · exact .integer longest ‹_›
    · exact .oversized longest (Nat.not_le.mp ‹_›)
  | letters letters solid =>
    exact .identifier (stands.longestRun (fun _ => joinsRun_of_isAlpha) solid letters)
  | symbol blank digit letter => exact spells_ofSymbol blank digit letter

end Spelling

section Reading

theorem Reads.ne_nil {run : List Char} {read : Option Token} (h : Reads run read) : run ≠ [] := by
  cases h with
  | blank | symbol => simp
  | digits _ solid | letters _ solid => exact solid

theorem Reads.isChain {run : List Char} {read : Option Token} (h : Reads run read) :
    run.IsChain (joinsRun · ·) := by
  cases h with
  | blank | symbol => simp
  | digits digits | letters digits =>
    refine (List.pairwise_of_forall_mem_list ?_).isChain
    intro a mem b mem'
    simp [joinsRun, digits a mem, digits b mem']

theorem Reads.not_isBlank {run : List Char} {token : Token} (h : Reads run (some token)) :
    ∀ c ∈ run, isBlank c = false := by
  cases h with
  | digits digits => exact fun c mem => not_isBlank_of_isDigit (digits c mem)
  | letters letters => exact fun c mem => not_isBlank_of_isAlpha (letters c mem)
  | symbol blank => simpa using blank

theorem lexemesFrom_append (start : Nat) (earlier later : List (List Char)) :
    lexemesFrom start (earlier ++ later) =
      lexemesFrom start earlier ++ lexemesFrom (start + byteLength earlier.flatten) later := by
  induction earlier generalizing start with
  | nil => simp [lexemesFrom, byteLength]
  | cons run earlier ih =>
    simp only [List.cons_append, lexemesFrom, ih, List.flatten_cons, byteLength_append,
      Nat.add_assoc]
    split <;> rfl

/-- A run that the characters around it do not join is a run of the text. -/
theorem Stands.splitBy_eq {text before run after : List Char} (h : Stands text before run after)
    (solid : run ≠ []) (chain : run.IsChain (joinsRun · ·)) :
    text.splitBy joinsRun =
      before.splitBy joinsRun ++ run :: after.splitBy joinsRun := by
  rw [h.text_eq, splitBy_of_parted h.left h.right solid chain]

/-- What is spelled in a text is what its lexemes hold. -/
theorem spelledAt_iff {text : String} {start stop : Nat} {token : Token} :
    SpelledAt text start stop token ↔ ⟨token, start, stop⟩ ∈ lexemes text := by
  constructor
  · rintro ⟨before, run, after, whole, rfl, rfl, spells⟩
    have stands : Stands text.toList before run after := whole ▸ spells.stands
    have reads := spells.reads
    rw [lexemes, stands.splitBy_eq reads.ne_nil reads.isChain, lexemesFrom_append,
      List.flatten_splitBy]
    simp [lexemesFrom, reads.ofRun?_eq]
  · intro mem
    obtain ⟨before, run, after, stands, starts, stops, reads⟩ := exists_stands mem
    exact ⟨before, run, after, stands.text_eq, starts, stops, reads.spells stands⟩

end Reading

section Spans

variable {text : String} {ls : List Lexeme}

theorem SpelledAt.solid {start stop : Nat} {token : Token} (h : SpelledAt text start stop token) :
    start < stop := by
  obtain ⟨before, run, after, -, -, rfl, spells⟩ := h
  exact Nat.lt_add_of_pos_right (byteLength_pos spells.reads.ne_nil)

theorem SpelledAt.inside {start stop : Nat} {token : Token} (h : SpelledAt text start stop token) :
    stop ≤ text.utf8ByteSize := by
  obtain ⟨before, run, after, whole, rfl, rfl, -⟩ := h
  rw [← byteLength_toList, whole, byteLength_append, byteLength_append]
  omega

theorem pairwise_lexemesFrom (start : Nat) (runs : List (List Char)) :
    (lexemesFrom start runs).Pairwise fun l l' => l.stop ≤ l'.start := by
  induction runs generalizing start with
  | nil => simp [lexemesFrom]
  | cons run runs ih =>
    simp only [lexemesFrom]
    split
    · refine List.pairwise_cons.mpr ⟨?_, ih _⟩
      intro l mem
      obtain ⟨earlier, _, _, -, -, starts, -⟩ := exists_run_of_mem mem
      exact starts ▸ Nat.le_add_right _ _
    · exact ih _

/-- Of lexemes in order no two share a byte. -/
theorem eq_of_overlap (ordered : ls.Pairwise fun l l' => l.stop ≤ l'.start) {l l' : Lexeme}
    (mem : l ∈ ls) (mem' : l' ∈ ls) {byte : Nat} (within : l.start ≤ byte ∧ byte < l.stop)
    (within' : l'.start ≤ byte ∧ byte < l'.stop) : l = l' := by
  have symm : Std.Symm fun l l' : Lexeme => l.stop ≤ l'.start ∨ l'.stop ≤ l.start :=
    ⟨fun _ _ apart => apart.symm⟩
  have apart : ls.Pairwise fun l l' => l.stop ≤ l'.start ∨ l'.stop ≤ l.start :=
    ordered.imp .inl
  by_contra distinct
  rcases apart.forall mem mem' distinct with before | after
  all_goals omega

/-- A byte of a character that is not blank lies in a lexeme. -/
theorem exists_mem_of_byteOwner {runs : List (List Char)} (start : Nat) (solid : [] ∉ runs)
    (chains : ∀ run ∈ runs, run.IsChain (joinsRun · ·)) {byte : Nat} {c : Char}
    (owner : (byteOwners runs.flatten)[byte]? = some c) (visible : isBlank c = false) :
    ∃ l ∈ lexemesFrom start runs, l.start ≤ start + byte ∧ start + byte < l.stop := by
  induction runs generalizing start byte with
  | nil => simp [byteOwners] at owner
  | cons run runs ih =>
    simp only [List.mem_cons, not_or] at solid
    obtain ⟨chain, chains⟩ := List.forall_mem_cons.mp chains
    rw [List.flatten_cons, byteOwners_append, List.getElem?_append, length_byteOwners] at owner
    split at owner
    · have mem := mem_of_getElem?_byteOwners owner
      have reads := reads_ofRun? (Ne.symm solid.1) chain
      cases read : Token.ofRun? run with
      | none =>
        rw [read] at reads
        cases reads with
        | blank blank => simp_all
      | some token =>
        refine ⟨⟨token, start, start + byteLength run⟩, by simp [lexemesFrom, read], ?_, ?_⟩
        · exact Nat.le_add_right _ _
        · simpa using ‹byte < byteLength run›
    · obtain ⟨l, mem, starts, stops⟩ := ih (start + byteLength run) solid.2 chains owner
      refine ⟨l, ?_, by omega, by omega⟩
      simp only [lexemesFrom]
      split
      · exact List.mem_cons_of_mem _ mem
      · exact mem

theorem not_isBlank_of_mem {l : Lexeme} (mem : l ∈ lexemes text) {byte : Nat} {c : Char}
    (owner : (byteOwners text.toList)[byte]? = some c) (within : l.start ≤ byte ∧ byte < l.stop) :
    isBlank c = false := by
  obtain ⟨before, run, after, stands, starts, stops, reads⟩ := exists_stands mem
  have inRun : (byteOwners run)[byte - l.start]? = some c := by
    have length := length_byteOwners before
    have length' := length_byteOwners run
    rwa [stands.text_eq, List.append_assoc, byteOwners_append, byteOwners_append,
      List.getElem?_append_right (by omega), List.getElem?_append_left (by omega),
      length, starts] at owner
  exact reads.not_isBlank c (mem_of_getElem?_byteOwners inRun)

theorem lexing_lexemes (text : String) : Lexing text (lexemes text) where
  solid l mem := (spelledAt_iff.mpr mem).solid
  inside l mem := (spelledAt_iff.mpr mem).inside
  ordered := pairwise_lexemesFrom 0 _
  spelled := by
    intro l mem token
    have there := spelledAt_iff.mpr mem
    refine ⟨fun same => same ▸ there, fun spelled => ?_⟩
    have same := eq_of_overlap (pairwise_lexemesFrom 0 _) mem (spelledAt_iff.mp spelled)
      ⟨Nat.le_refl _, there.solid⟩ ⟨Nat.le_refl _, there.solid⟩
    exact congrArg Lexeme.token same
  blank := by
    intro byte c owner
    constructor
    · intro blank l mem within
      simp [not_isBlank_of_mem mem owner within] at blank
    · intro outside
      by_contra visible
      rw [← List.flatten_splitBy joinsRun text.toList] at owner
      obtain ⟨l, mem, within⟩ := exists_mem_of_byteOwner 0 (List.nil_notMem_splitBy _ _)
        (fun _ => List.isChain_of_mem_splitBy) owner (by simpa using visible)
      exact outside l mem (by simpa using within)

/-- The first character of a lexeme owns the byte at which it starts. -/
theorem exists_byteOwner {l : Lexeme} (mem : l ∈ lexemes text) :
    ∃ c, (byteOwners text.toList)[l.start]? = some c := by
  have inside := (lexing_lexemes text).inside l mem
  have solid := (lexing_lexemes text).solid l mem
  rw [← byteLength_toList, ← length_byteOwners] at inside
  exact ⟨_, List.getElem?_eq_getElem (by omega)⟩

theorem Lexing.mem_iff (h : Lexing text ls) (l : Lexeme) : l ∈ ls ↔ l ∈ lexemes text := by
  have sound : ∀ l ∈ ls, l ∈ lexemes text := fun l mem =>
    spelledAt_iff.mp ((h.spelled l mem l.token).mp rfl)
  refine ⟨sound l, fun mem => ?_⟩
  -- the first byte of the lexeme lies in a lexeme of the list, which can be no other
  have all := lexing_lexemes text
  obtain ⟨c, owner⟩ := exists_byteOwner mem
  have first : l.start ≤ l.start ∧ l.start < l.stop := ⟨Nat.le_refl _, all.solid l mem⟩
  have visible := not_isBlank_of_mem mem owner first
  obtain ⟨l', mem', within⟩ : ∃ l' ∈ ls, l'.start ≤ l.start ∧ l.start < l'.stop := by
    by_contra outside
    have blank := (h.blank l.start c owner).mpr (by simpa using outside)
    simp [visible] at blank
  exact eq_of_overlap all.ordered mem (sound l' mem') first within ▸ mem'

/-- The lexemes of a text are the one list of lexemes that loses nothing of it. -/
theorem lexing_iff : Lexing text ls ↔ ls = lexemes text := by
  constructor
  · intro h
    have all := lexing_lexemes text
    have starts : ∀ {ls : List Lexeme}, Lexing text ls →
        ls.Pairwise fun l l' => l.start < l'.start := by
      intro ls h
      refine h.ordered.imp_of_mem ?_
      intro l l' mem mem' before
      exact Nat.lt_of_lt_of_le (h.solid l mem) before
    have irrefl : Std.Irrefl fun l l' : Lexeme => l.start < l'.start := ⟨fun _ => Nat.lt_irrefl _⟩
    have antisymm : Std.Antisymm fun l l' : Lexeme => l.start < l'.start :=
      ⟨fun _ _ before after => absurd before (Nat.lt_asymm after)⟩
    exact (starts h).eq_of_mem_iff (starts all) h.mem_iff
  · rintro rfl
    exact lexing_lexemes text

end Spans

end ArrayCalc
