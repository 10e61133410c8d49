import Mathlib.Data.List.Forall2
import Mathlib.Data.List.SplitBy
import ArrayCalc.Token.Lexer

/-! How tokens are written. A text falls into runs, of which each is a blank or writes one token.
Without its blanks a text of known tokens is what these are written with, one after the other. -/
namespace ArrayCalc

def Token.isError : Token → Bool
  | .oversized _ | .foreign _ => true
  | _ => false

/-- An integer or an identifier. All other tokens are single characters. -/
def Token.isAtom : Token → Bool
  | .integer _ | .identifier _ => true
  | _ => false

def tokens (text : String) : List Token := (lexemes text).map Lexeme.token

inductive Writes : List Char → Token → Prop where
  | integer {run : List Char} (digits : ∀ c ∈ run, c.isDigit = true) (solid : run ≠ []) :
      Writes run (.integer (Nat.ofDigitChars 10 run 0))
  | identifier {run : List Char} (letters : ∀ c ∈ run, c.isAlpha = true) (solid : run ≠ []) :
      Writes run (.identifier (String.ofList run))
  | symbol {c : Char} (known : (Token.ofSymbol c).isError = false) :
      Writes [c] (Token.ofSymbol c)

theorem Writes.ne_nil {run : List Char} {token : Token} (h : Writes run token) : run ≠ [] := by
  cases h with
  | integer digits solid => exact solid
  | identifier letters solid => exact solid
  | symbol known => simp

theorem lexemesFrom_map_token (start : Nat) (runs : List (List Char)) :
    (lexemesFrom start runs).map Lexeme.token = runs.filterMap Token.ofRun? := by
  induction runs generalizing start with
  | nil => rfl
  | cons run runs ih =>
    simp only [lexemesFrom]
    cases read : Token.ofRun? run with
    | none => simp [read, ih]
    | some token => simp [read, ih]

theorem tokens_eq (text : String) :
    tokens text = (text.toList.splitBy joinsRun).filterMap Token.ofRun? :=
  lexemesFrom_map_token 0 _

section Characters

variable {c d : Char}

theorem not_isBlank_of_isDigit (h : c.isDigit = true) : Text.isBlank c = false := by
  by_contra blank
  simp only [Text.isBlank, Bool.or_eq_true, decide_eq_true_eq, Bool.not_eq_false] at blank
  rcases blank with rfl | rfl
  all_goals contradiction

theorem not_isBlank_of_isAlpha (h : c.isAlpha = true) : Text.isBlank c = false := by
  by_contra blank
  simp only [Text.isBlank, Bool.or_eq_true, decide_eq_true_eq, Bool.not_eq_false] at blank
  rcases blank with rfl | rfl
  all_goals contradiction

theorem not_isDigit_of_isAlpha (h : c.isAlpha = true) : c.isDigit = false := by
  delta Char.isAlpha Char.isUpper Char.isLower at h
  simp only [Char.isDigit]
  grind

theorem not_isAlpha_of_isDigit (h : c.isDigit = true) : c.isAlpha = false := by
  by_contra letter
  simp [not_isDigit_of_isAlpha (Bool.not_eq_false _ ▸ letter)] at h

theorem joinsRun_comm (c d : Char) : joinsRun c d = joinsRun d c := by
  simp only [joinsRun, Bool.and_comm]

theorem joinsRun_of_isDigit (digit : c.isDigit = true) (d : Char) : joinsRun c d = d.isDigit := by
  simp [joinsRun, digit, not_isAlpha_of_isDigit digit]

theorem joinsRun_of_isAlpha (letter : c.isAlpha = true) (d : Char) : joinsRun c d = d.isAlpha := by
  simp [joinsRun, letter, not_isDigit_of_isAlpha letter]

end Characters

section Runs

variable {c : Char} {run : List Char}

/-- A class of characters that join only each other holds all of a run or none of it. -/
theorem forall_mem_of_isChain {p : Char → Bool} (chain : (c :: run).IsChain (joinsRun · ·))
    (joins : ∀ a, p a = true → ∀ b, joinsRun a b = p b) (first : p c = true) :
    ∀ a ∈ c :: run, p a = true :=
  chain.induction (p · = true) _ (fun a b joined inside => joins a inside b ▸ joined)
    (by simpa using first)

theorem eq_nil_of_isChain (chain : (c :: run).IsChain (joinsRun · ·))
    (digit : c.isDigit = false) (letter : c.isAlpha = false) : run = [] := by
  cases run with
  | nil => rfl
  | cons d run =>
    have joined := (List.isChain_cons_cons.mp chain).1
    simp [joinsRun, digit, letter] at joined

/-- What a longest run of a text is: a blank, digits, letters, or a character that stands for
itself, each with the token read from it. -/
inductive Reads : List Char → Option Token → Prop where
  | blank {c : Char} (blank : Text.isBlank c = true) : Reads [c] none
  | digits {run : List Char} (digits : ∀ c ∈ run, c.isDigit = true) (solid : run ≠ []) :
      Reads run (some (Token.ofDigits run))
  | letters {run : List Char} (letters : ∀ c ∈ run, c.isAlpha = true) (solid : run ≠ []) :
      Reads run (some (.identifier (String.ofList run)))
  | symbol {c : Char} (blank : Text.isBlank c = false) (digit : c.isDigit = false)
      (letter : c.isAlpha = false) : Reads [c] (some (Token.ofSymbol c))

theorem Reads.ofRun?_eq {read : Option Token} (h : Reads run read) : Token.ofRun? run = read := by
  cases h with
  | blank blank => simp [Token.ofRun?, blank]
  | digits digits solid =>
    obtain ⟨c, run, rfl⟩ := List.exists_cons_of_ne_nil solid
    have digit := digits c List.mem_cons_self
    simp [Token.ofRun?, digit, not_isBlank_of_isDigit digit]
  | letters letters solid =>
    obtain ⟨c, run, rfl⟩ := List.exists_cons_of_ne_nil solid
    have letter := letters c List.mem_cons_self
    simp [Token.ofRun?, letter, not_isDigit_of_isAlpha letter, not_isBlank_of_isAlpha letter]
  | symbol blank digit letter => simp [Token.ofRun?, blank, digit, letter]

theorem reads_ofRun? (solid : run ≠ []) (chain : run.IsChain (joinsRun · ·)) :
    Reads run (Token.ofRun? run) := by
  have exact : ∀ {read}, Reads run read → Reads run (Token.ofRun? run) :=
    fun reads => reads.ofRun?_eq ▸ reads
  obtain ⟨c, run, rfl⟩ := List.exists_cons_of_ne_nil solid
  by_cases digit : c.isDigit = true
  · exact exact (.digits (forall_mem_of_isChain chain (fun _ => joinsRun_of_isDigit) digit) solid)
  by_cases letter : c.isAlpha = true
  · exact exact (.letters (forall_mem_of_isChain chain (fun _ => joinsRun_of_isAlpha) letter) solid)
  simp only [Bool.not_eq_true] at digit letter
  obtain rfl := eq_nil_of_isChain chain digit letter
  by_cases blank : Text.isBlank c = true
  · exact exact (.blank blank)
  · exact exact (.symbol (by simpa using blank) digit letter)

/-- A run is blank, or holds no blank and has a token that it writes if it is known. -/
theorem blank_or_writes (solid : run ≠ []) (chain : run.IsChain (joinsRun · ·)) :
    (Token.ofRun? run = none ∧ run.filter (!Text.isBlank ·) = []) ∨
      ∃ token, Token.ofRun? run = some token ∧ run.filter (!Text.isBlank ·) = run ∧
        (token.isError = false → Writes run token) := by
  have reads := reads_ofRun? solid chain
  generalize Token.ofRun? run = read at reads ⊢
  cases reads with
  | blank blank => exact .inl ⟨rfl, by simp [blank]⟩
  | digits digits =>
    refine .inr ⟨_, rfl, List.filter_eq_self.mpr ?_, ?_⟩
    · intro a mem
      simp [not_isBlank_of_isDigit (digits a mem)]
    · intro known
      simp only [Token.ofDigits] at known ⊢
      split
      · exact .integer digits solid
      · simp_all [Token.isError]
  | letters letters =>
    refine .inr ⟨_, rfl, List.filter_eq_self.mpr ?_, fun _ => .identifier letters solid⟩
    intro a mem
    simp [not_isBlank_of_isAlpha (letters a mem)]
  | symbol blank => exact .inr ⟨_, rfl, by simp [blank], fun known => .symbol known⟩

end Runs

theorem exists_writes (runs : List (List Char)) (solid : [] ∉ runs)
    (chains : ∀ run ∈ runs, run.IsChain (joinsRun · ·))
    (known : ∀ token ∈ runs.filterMap Token.ofRun?, token.isError = false) :
    ∃ written, List.Forall₂ Writes written (runs.filterMap Token.ofRun?) ∧
      written.flatten = runs.flatten.filter (!Text.isBlank ·) := by
  induction runs with
  | nil => exact ⟨[], by simp, rfl⟩
  | cons run runs ih =>
    simp only [List.mem_cons, not_or] at solid
    obtain ⟨chain, chains⟩ := List.forall_mem_cons.mp chains
    rcases blank_or_writes (Ne.symm solid.1) chain with ⟨none, blank⟩ | ⟨token, some, whole, writes⟩
    · simp only [List.filterMap_cons, none] at known ⊢
      obtain ⟨written, all, flat⟩ := ih solid.2 chains known
      exact ⟨written, all, by simp [flat, blank]⟩
    · simp only [List.filterMap_cons, some, List.forall_mem_cons] at known ⊢
      obtain ⟨written, all, flat⟩ := ih solid.2 chains known.2
      exact ⟨run :: written, .cons (writes known.1) all, by simp [flat, whole]⟩

/-- Without its blanks, a text of known tokens is the runs that write them. -/
theorem exists_writes_tokens {text : String} (known : ∀ token ∈ tokens text, token.isError = false) :
    ∃ written, List.Forall₂ Writes written (tokens text) ∧
      written.flatten = text.toList.filter (!Text.isBlank ·) := by
  rw [tokens_eq] at known ⊢
  have found := exists_writes _ (List.nil_notMem_splitBy joinsRun text.toList)
    (fun run => List.isChain_of_mem_splitBy) known
  rwa [List.flatten_splitBy] at found

end ArrayCalc
