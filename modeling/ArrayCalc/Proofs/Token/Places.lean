import ArrayCalc.Proofs.Token.Runs

/-! Where the lexemes of a text stand. Each is read from a run of the text that starts at the byte
the lexeme says and that the characters around it do not join. So a number is a longest run of
digits, and a character outside the grammar is in the text where its lexeme says. -/
namespace ArrayCalc

open Text

/-- A run with the characters before and after it, which are parted from it. -/
structure Stands (text before run after : List Char) : Prop where
  text_eq : text = before ++ run ++ after
  left : ∀ a ∈ before.getLast?, ∀ b ∈ run.head?, joinsRun a b = false
  right : ∀ a ∈ run.getLast?, ∀ b ∈ after.head?, joinsRun a b = false

structure LongestRun (p : Char → Bool) (before run after : List Char) : Prop where
  solid : run ≠ []
  inside : ∀ c ∈ run, p c = true
  left : ∀ c ∈ before.getLast?, p c = false
  right : ∀ c ∈ after.head?, p c = false

/-- A longest run of digits of the given value that starts at a byte of a text. -/
def DigitsAt (text : String) (value start : Nat) : Prop :=
  ∃ before digits after, text.toList = before ++ digits ++ after ∧ byteLength before = start ∧
    digits ≠ [] ∧ (∀ c ∈ digits, c.isDigit = true) ∧
    (∀ c ∈ before.getLast?, c.isDigit = false) ∧ (∀ c ∈ after.head?, c.isDigit = false) ∧
    Nat.ofDigitChars 10 digits 0 = value

def CharacterAt (text : String) (c : Char) (start : Nat) : Prop :=
  ∃ before after, text.toList = before ++ c :: after ∧ byteLength before = start

/-- A character that is no blank and that no token of the grammar is written with. -/
def IsForeign (c : Char) : Prop :=
  isBlank c = false ∧ c.isDigit = false ∧ c.isAlpha = false ∧
    c ∉ ['+', '-', '*', '/', '(', ')', '[', ']']

theorem byteLength_append (before after : List Char) :
    byteLength (before ++ after) = byteLength before + byteLength after := by
  induction before with
  | nil => simp [byteLength]
  | cons c before ih =>
    simp only [byteLength, List.cons_append, List.foldr_cons] at ih ⊢
    omega

theorem exists_run_of_mem {start : Nat} {runs : List (List Char)} {l : Lexeme}
    (h : l ∈ lexemesFrom start runs) :
    ∃ earlier run later, runs = earlier ++ run :: later ∧ Token.ofRun? run = some l.token ∧
      start + byteLength earlier.flatten = l.start ∧ l.start + byteLength run = l.stop := by
  induction runs generalizing start with
  | nil => simp [lexemesFrom] at h
  | cons first runs ih =>
    have rest : l ∈ lexemesFrom (start + byteLength first) runs →
        ∃ earlier run later, first :: runs = earlier ++ run :: later ∧
          Token.ofRun? run = some l.token ∧ start + byteLength earlier.flatten = l.start ∧
          l.start + byteLength run = l.stop := by
      intro mem
      obtain ⟨earlier, run, later, rfl, token, starts, stops⟩ := ih mem
      refine ⟨first :: earlier, run, later, rfl, token, ?_, stops⟩
      rw [List.flatten_cons, byteLength_append]
      omega
    simp only [lexemesFrom] at h
    split at h
    · rename_i token read
      rcases List.mem_cons.mp h with rfl | later
      · exact ⟨[], first, runs, rfl, read, by simp [byteLength], rfl⟩
      · exact rest later
    · exact rest h

section Parting

variable {r : Char → Char → Bool}

/-- Runs that do not join end and begin with characters that do not. -/
theorem parted_of_isChain {earlier later : List (List Char)} (solid : [] ∉ earlier ++ later)
    (apart : (earlier ++ later).IsChain fun a b =>
      ∃ solid solid', r (a.getLast solid) (b.head solid') = false) :
    ∀ a ∈ earlier.flatten.getLast?, ∀ b ∈ later.flatten.head?, r a b = false := by
  intro a last b first
  cases earlier using List.reverseRecOn with
  | nil => simp at last
  | append_singleton earlier run =>
    cases later with
    | nil => simp at first
    | cons run' later =>
      obtain ⟨-, -, joint⟩ := List.isChain_append.mp apart
      obtain ⟨ne, ne', parted⟩ := joint run (by simp) run' (by simp)
      have ends : a = run.getLast ne := by
        simpa [List.getLast?_append_of_ne_nil _ ne, List.getLast?_eq_some_getLast ne,
          eq_comm] using last
      have begins : b = run'.head ne' := by
        simpa [List.head?_append_of_ne_nil _ ne', List.head?_eq_some_head ne', eq_comm] using first
      rw [ends, begins, parted]

/-- The characters around a run of a text do not join it. -/
theorem parted_of_splitBy {text run : List Char} {earlier later : List (List Char)}
    (split : text.splitBy r = earlier ++ run :: later) :
    (∀ a ∈ earlier.flatten.getLast?, ∀ b ∈ run.head?, r a b = false) ∧
      ∀ a ∈ run.getLast?, ∀ b ∈ later.flatten.head?, r a b = false := by
  obtain ⟨-, solid, -, apart⟩ := List.splitBy_eq_iff.mp split
  have ne : run ≠ [] := fun empty => solid (by simp [empty])
  have left := parted_of_isChain solid apart
  have right := @parted_of_isChain _ (earlier ++ [run]) later (by simpa using solid)
    (by simpa using apart)
  constructor
  · simpa [List.head?_append_of_ne_nil _ ne] using left
  · simpa [List.getLast?_append_of_ne_nil _ ne] using right

/-- A run that the characters around it do not join is a run of the text. -/
theorem splitBy_of_parted {before run after : List Char}
    (left : ∀ a ∈ before.getLast?, ∀ b ∈ run.head?, r a b = false)
    (right : ∀ a ∈ run.getLast?, ∀ b ∈ after.head?, r a b = false) (solid : run ≠ [])
    (chain : run.IsChain (r · ·)) :
    (before ++ run ++ after).splitBy r = before.splitBy r ++ run :: after.splitBy r := by
  rw [← List.getLast?_append_of_ne_nil before solid] at right
  rw [List.splitBy_append right, List.splitBy_append left, List.splitBy_of_isChain solid chain,
    List.append_assoc, List.singleton_append]

section Class

variable {p : Char → Bool} {before run after : List Char} (comm : ∀ a b, r a b = r b a)
  (joins : ∀ a, p a = true → ∀ b, r a b = p b)
include comm joins

/-- Characters of a class that join only each other are a longest run of it where they stand. -/
theorem longestRun_of_parted (left : ∀ a ∈ before.getLast?, ∀ b ∈ run.head?, r a b = false)
    (right : ∀ a ∈ run.getLast?, ∀ b ∈ after.head?, r a b = false) (solid : run ≠ [])
    (inside : ∀ c ∈ run, p c = true) : LongestRun p before run after := by
  refine ⟨solid, inside, ?_, ?_⟩
  · intro a last
    rw [← joins _ (inside _ (List.head_mem solid)), comm]
    exact left a last _ (List.head?_eq_some_head solid)
  · intro b first
    rw [← joins _ (inside _ (List.getLast_mem solid))]
    exact right _ (List.getLast?_eq_some_getLast solid) b first

theorem LongestRun.parted (h : LongestRun p before run after) :
    (∀ a ∈ before.getLast?, ∀ b ∈ run.head?, r a b = false) ∧
      ∀ a ∈ run.getLast?, ∀ b ∈ after.head?, r a b = false := by
  constructor
  · intro a last b first
    rw [comm, joins b (h.inside b (List.mem_of_mem_head? first)), h.left a last]
  · intro a last b first
    rw [joins a (h.inside a (List.mem_of_getLast? last)), h.right b first]

end Class

end Parting

/-- A lexeme is read from a run of the text that starts at the byte that it says. -/
theorem exists_stands {text : String} {l : Lexeme} (h : l ∈ lexemes text) :
    ∃ before run after, Stands text.toList before run after ∧ byteLength before = l.start ∧
      l.start + byteLength run = l.stop ∧ Reads run (some l.token) := by
  obtain ⟨earlier, run, later, split, token, starts, stops⟩ := exists_run_of_mem h
  obtain ⟨left, right⟩ := parted_of_splitBy split
  have mem : run ∈ text.toList.splitBy joinsRun := by
    rw [split]
    simp
  refine ⟨earlier.flatten, run, later.flatten, ⟨?_, left, right⟩, by simpa using starts, stops, ?_⟩
  · rw [← List.flatten_splitBy joinsRun text.toList, split]
    simp
  · exact token ▸ reads_ofRun? (List.ne_nil_of_mem_splitBy mem) (List.isChain_of_mem_splitBy mem)

theorem Stands.longestRun {p : Char → Bool} {text before run after : List Char}
    (joins : ∀ a, p a = true → ∀ b, joinsRun a b = p b) (h : Stands text before run after)
    (solid : run ≠ []) (inside : ∀ c ∈ run, p c = true) : LongestRun p before run after :=
  longestRun_of_parted joinsRun_comm joins h.left h.right solid inside

/-- Digits that the characters around them do not join are a longest run of digits. -/
theorem Stands.digitsAt {text : String} {before run after : List Char}
    (h : Stands text.toList before run after) (digits : ∀ c ∈ run, c.isDigit = true)
    (solid : run ≠ []) : DigitsAt text (Nat.ofDigitChars 10 run 0) (byteLength before) := by
  obtain ⟨-, -, left, right⟩ := h.longestRun (fun _ => joinsRun_of_isDigit) solid digits
  exact ⟨before, run, after, h.text_eq, rfl, solid, digits, left, right, rfl⟩

/-- A token that is read from digits, whether it holds their value or not. -/
def Token.isNumeral : Token → Bool
  | .integer _ | .oversized _ => true
  | _ => false

theorem Reads.digits_of_isNumeral {run : List Char} {token : Token} (h : Reads run (some token))
    (numeral : token.isNumeral = true) :
    (∀ c ∈ run, c.isDigit = true) ∧ run ≠ [] ∧ token = Token.ofDigits run := by
  cases h with
  | letters => simp [Token.isNumeral] at numeral
  | digits digits solid => exact ⟨digits, solid, rfl⟩
  | symbol =>
    simp only [Token.ofSymbol] at numeral
    split at numeral <;> simp [Token.isNumeral] at numeral

theorem Token.ofSymbol_eq_foreign {c d : Char} (h : ofSymbol c = .foreign d) :
    c = d ∧ c ∉ ['+', '-', '*', '/', '(', ')', '[', ']'] := by
  unfold ofSymbol at h
  split at h <;> simp_all

theorem Reads.symbol_of_foreign {run : List Char} {c : Char} (h : Reads run (some (.foreign c))) :
    run = [c] ∧ IsForeign c := by
  generalize eq : some (Token.foreign c) = read at h
  cases h with
  | blank | letters => simp at eq
  | digits =>
    simp only [Token.ofDigits, Option.some.injEq] at eq
    split at eq <;> simp at eq
  | symbol blank digit letter =>
    obtain ⟨rfl, other⟩ := Token.ofSymbol_eq_foreign (Option.some.inj eq).symm
    exact ⟨rfl, blank, digit, letter, other⟩

section Lexemes

variable {text : String} {l : Lexeme}

/-- A lexeme that is read from digits starts where a longest run of digits does. -/
theorem exists_digitsAt (h : l ∈ lexemes text) (numeral : l.token.isNumeral = true) :
    ∃ digits, DigitsAt text (Nat.ofDigitChars 10 digits 0) l.start ∧
      l.token = Token.ofDigits digits := by
  obtain ⟨before, run, after, stands, starts, -, reads⟩ := exists_stands h
  obtain ⟨digits, solid, token⟩ := reads.digits_of_isNumeral numeral
  exact ⟨run, starts ▸ stands.digitsAt digits solid, token⟩

theorem characterAt_of_foreign {c : Char} (h : l ∈ lexemes text) (token : l.token = .foreign c) :
    CharacterAt text c l.start ∧ IsForeign c := by
  obtain ⟨before, run, after, stands, starts, -, reads⟩ := exists_stands h
  obtain ⟨rfl, foreign⟩ := (token ▸ reads).symbol_of_foreign
  exact ⟨⟨before, after, by simpa using stands.text_eq, starts⟩, foreign⟩

end Lexemes

end ArrayCalc
