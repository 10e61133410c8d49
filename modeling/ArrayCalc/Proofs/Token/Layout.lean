import ArrayCalc.Proofs.Text.Integer
import ArrayCalc.Proofs.Token.Blanks

/-! Laying tokens out as a text. Blanks stand anywhere around them and must stand between two
integers and between two identifiers, and integers may begin with zeros. Lexing undoes this: a text
of known tokens is laid out from the list of its lexemes, and from no other. -/
namespace ArrayCalc

open Text

/-- What a token is printed as. An integer may have any number of zeros before its digits. -/
inductive Prints : Token → List Char → Prop where
  | integer (zeros : Nat) {value : Nat} (fits : value ≤ Token.integerLimit) :
      Prints (.integer value) (List.replicate zeros '0' ++ Nat.toDigits 10 value)
  | identifier {name : List Char} (letters : ∀ c ∈ name, c.isAlpha = true) (solid : name ≠ []) :
      Prints (.identifier (String.ofList name)) name
  | operator (op : Operator) : Prints (.operator op) [op.symbol]
  | opening (bracket : Bracket) : Prints (.opening bracket) [bracket.opening]
  | closing (bracket : Bracket) : Prints (.closing bracket) [bracket.closing]

def Token.isInteger : Token → Bool
  | .integer _ => true
  | _ => false

def Token.isIdentifier : Token → Bool
  | .identifier _ => true
  | _ => false

/-- Whether two tokens would be read as one if they were printed side by side. -/
def Token.merges (a b : Token) : Bool :=
  (a.isInteger && b.isInteger) || (a.isIdentifier && b.isIdentifier)

/-- Characters from byte `start` on in which tokens are printed in order, with blanks before,
between and after them, and the places of the tokens. Between two that would merge there are
blanks. -/
inductive LaidOut : Nat → List Char → List Lexeme → Prop where
  | done {start : Nat} {blanks : List Char} (blank : ∀ c ∈ blanks, isBlank c = true) :
      LaidOut start blanks []
  | next {start : Nat} {token : Token} {blanks run rest : List Char} {ls : List Lexeme}
      (blank : ∀ c ∈ blanks, isBlank c = true) (prints : Prints token run)
      (parted : ∀ l ∈ ls.head?, token.merges l.token = true →
        start + byteLength (blanks ++ run) < l.start)
      (others : LaidOut (start + byteLength (blanks ++ run)) rest ls) :
      LaidOut start (blanks ++ run ++ rest)
        (⟨token, start + byteLength blanks, start + byteLength (blanks ++ run)⟩ :: ls)

section Printing

variable {token token' : Token} {run run' : List Char}

theorem digit_of_mem_integer {zeros value : Nat} {c : Char}
    (mem : c ∈ List.replicate zeros '0' ++ Nat.toDigits 10 value) : c.isDigit = true := by
  rcases List.mem_append.mp mem with zero | digit
  · rw [List.eq_of_mem_replicate zero]
    rfl
  · exact Nat.isDigit_of_mem_toDigits (by decide) (by decide) digit

theorem Prints.spells (h : Prints token run) : Spells [] [] run token := by
  cases h with
  | @integer zeros value fits =>
    have written : Nat.ofDigitChars 10 (List.replicate zeros '0' ++ Nat.toDigits 10 value) 0 =
        value := by
      simp [Nat.ofDigitChars_append, Nat.ofDigitChars_replicate_zero]
    have longest : LongestRun Char.isDigit [] (List.replicate zeros '0' ++ Nat.toDigits 10 value)
        [] := ⟨by simp, fun _ => digit_of_mem_integer, by simp, by simp⟩
    have spells := Spells.integer longest (written.trans_le fits)
    rwa [written] at spells
  | identifier letters solid => exact .identifier ⟨solid, letters, by simp, by simp⟩
  | operator op => exact .operator op
  | opening bracket => exact .opening bracket
  | closing bracket => exact .closing bracket

/-- A known token is printed as the characters that spell it. -/
theorem prints_of_spells (h : Spells [] [] run token) (known : token.isError = false) :
    Prints token run := by
  cases h with
  | integer longest fits =>
    obtain ⟨zeros, split⟩ := exists_zeros longest.solid longest.inside
    have prints := Prints.integer zeros fits
    rwa [← split] at prints
  | identifier longest => exact .identifier longest.inside longest.solid
  | operator op => exact .operator op
  | opening bracket => exact .opening bracket
  | closing bracket => exact .closing bracket
  | oversized | foreign => simp [Token.isError] at known

theorem prints_iff : Prints token run ↔ Reads run (some token) ∧ token.isError = false := by
  constructor
  · intro prints
    exact ⟨prints.spells.reads, by cases prints <;> rfl⟩
  · rintro ⟨reads, known⟩
    exact prints_of_spells (reads.spells ⟨(List.append_nil run).symm, by simp, by simp⟩) known

theorem Prints.reads (h : Prints token run) : Reads run (some token) := (prints_iff.mp h).1

theorem Prints.classes (h : Prints token run) :
    ∀ c ∈ run, c.isDigit = token.isInteger ∧ c.isAlpha = token.isIdentifier := by
  intro c mem
  cases h with
  | integer zeros fits =>
    have digit := digit_of_mem_integer mem
    exact ⟨digit, not_isAlpha_of_isDigit digit⟩
  | identifier letters solid =>
    exact ⟨not_isDigit_of_isAlpha (letters c mem), letters c mem⟩
  | operator op =>
    obtain rfl := List.mem_singleton.mp mem
    cases op <;> exact ⟨rfl, rfl⟩
  | opening bracket | closing bracket =>
    obtain rfl := List.mem_singleton.mp mem
    cases bracket <;> exact ⟨rfl, rfl⟩

/-- Two tokens merge if their characters join. -/
theorem Prints.joinsRun_eq (h : Prints token run) (h' : Prints token' run') {a b : Char}
    (mem : a ∈ run) (mem' : b ∈ run') : joinsRun a b = token.merges token' := by
  obtain ⟨digit, letter⟩ := h.classes a mem
  obtain ⟨digit', letter'⟩ := h'.classes b mem'
  rw [joinsRun, Token.merges, digit, letter, digit', letter']

end Printing

section Blank

variable {start : Nat} {c : Char} {chars : List Char} {ls : List Lexeme}

theorem lexemesFrom_of_blank {runs : List (List Char)}
    (blank : ∀ run ∈ runs, ∀ c ∈ run, isBlank c = true) : lexemesFrom start runs = [] := by
  induction runs generalizing start with
  | nil => rfl
  | cons run runs ih =>
    obtain ⟨first, others⟩ := List.forall_mem_cons.mp blank
    have unread : Token.ofRun? run = none := by
      cases run with
      | nil => rfl
      | cons c run => simp [Token.ofRun?, first c List.mem_cons_self]
    simp only [lexemesFrom, unread, ih others]

theorem lexemesFrom_splitBy_of_blank (blank : ∀ c ∈ chars, isBlank c = true) :
    lexemesFrom start (chars.splitBy joinsRun) = [] := by
  refine lexemesFrom_of_blank ?_
  intro run mem c inRun
  refine blank c ?_
  rw [← List.flatten_splitBy joinsRun chars]
  exact List.mem_flatten_of_mem mem inRun

theorem LaidOut.blank_cons (h : LaidOut (start + c.utf8Size) chars ls) (blank : isBlank c = true) :
    LaidOut start (c :: chars) ls := by
  cases h with
  | done others => exact .done (List.forall_mem_cons.mpr ⟨blank, others⟩)
  | @next _ token blanks run rest ls others prints parted laid =>
    have moved : ∀ chars, start + byteLength (c :: chars) = start + c.utf8Size + byteLength chars :=
      fun chars => by rw [← List.singleton_append, byteLength_append, ← Nat.add_assoc]; rfl
    rw [← moved] at parted laid
    rw [← moved, ← moved]
    exact .next (List.forall_mem_cons.mpr ⟨blank, others⟩) prints parted laid

end Blank

namespace LaidOut

variable {start stop : Nat} {token : Token} {run chars : List Char} {ls : List Lexeme}

theorem isError_eq_false (h : LaidOut start chars ls) : ∀ l ∈ ls, l.token.isError = false := by
  induction h with
  | done => simp
  | next _ prints _ _ ih => exact List.forall_mem_cons.mpr ⟨(prints_iff.mp prints).2, ih⟩

/-- What is printed before laid out tokens does not join them. -/
theorem not_joinsRun (h : LaidOut stop chars ls) (prints : Prints token run)
    (parted : ∀ l ∈ ls.head?, token.merges l.token = true → stop < l.start) :
    ∀ a ∈ run.getLast?, ∀ b ∈ chars.head?, joinsRun a b = false := by
  intro a last b first
  cases h with
  | done blank => exact joinsRun_of_isBlank (blank b (List.mem_of_mem_head? first)) a
  | @next _ token' blanks run' rest ls blank prints' parted' others =>
    cases blanks with
    | cons c blanks =>
      obtain rfl : c = b := by simpa using first
      exact joinsRun_of_isBlank (blank c List.mem_cons_self) a
    | nil =>
      -- without blanks between them the two tokens cannot be such that merge
      have mem : b ∈ run' := by
        rw [List.nil_append, List.head?_append_of_ne_nil _ prints'.reads.ne_nil] at first
        exact List.mem_of_mem_head? first
      rw [prints.joinsRun_eq prints' (List.mem_of_getLast? last) mem]
      by_contra merges
      have apart := parted _ rfl (by simpa using merges)
      simp [byteLength] at apart

/-- Lexing laid out tokens gives them back with their places. -/
theorem lexemesFrom_eq (h : LaidOut start chars ls) :
    lexemesFrom start (chars.splitBy joinsRun) = ls := by
  induction h with
  | done blank => exact lexemesFrom_splitBy_of_blank blank
  | @next start token blanks run rest ls blank prints parted others ih =>
    have reads := prints.reads
    have stands : Stands (blanks ++ run ++ rest) blanks run rest := by
      refine ⟨rfl, ?_, others.not_joinsRun prints parted⟩
      intro a last b first
      rw [joinsRun_comm]
      exact joinsRun_of_isBlank (blank a (List.mem_of_getLast? last)) b
    rw [stands.splitBy_eq reads.ne_nil reads.isChain, lexemesFrom_append,
      lexemesFrom_splitBy_of_blank blank, List.flatten_splitBy]
    rw [byteLength_append, ← Nat.add_assoc] at ih ⊢
    simp only [List.nil_append, lexemesFrom, reads.ofRun?_eq, ih]

end LaidOut

section Runs

variable {start stop : Nat} {token : Token} {run : List Char} {runs : List (List Char)}

/-- Where a token would merge with the next one, a blank run is between them. -/
theorem lt_start_of_head (prints : Prints token run) (solid : [] ∉ runs)
    (chains : ∀ run ∈ runs, run.IsChain (joinsRun · ·))
    (apart : ∀ run' ∈ runs.head?,
      ∃ solid solid', joinsRun (run.getLast solid) (run'.head solid') = false)
    (known : ∀ l ∈ lexemesFrom stop runs, l.token.isError = false) :
    ∀ l ∈ (lexemesFrom stop runs).head?, token.merges l.token = true → stop < l.start := by
  cases runs with
  | nil => simp [lexemesFrom]
  | cons run' runs =>
    simp only [List.mem_cons, not_or] at solid
    have reads := reads_ofRun? (Ne.symm solid.1) (chains run' List.mem_cons_self)
    simp only [lexemesFrom] at known ⊢
    split at known
    · rename_i token' read
      rw [read] at reads
      have prints' := prints_iff.mpr ⟨reads, known _ List.mem_cons_self⟩
      obtain ⟨ne, ne', parted⟩ := apart run' rfl
      rw [prints.joinsRun_eq prints' (List.getLast_mem ne) (List.head_mem ne')] at parted
      simp [parted]
    · intro l first _
      obtain ⟨earlier, _, _, -, -, starts, -⟩ := exists_run_of_mem (List.mem_of_mem_head? first)
      have wide := byteLength_pos (Ne.symm solid.1)
      omega

/-- Runs that do not join, of which those that are not blank are known tokens, lay these out. -/
theorem laidOut_lexemesFrom (solid : [] ∉ runs)
    (chains : ∀ run ∈ runs, run.IsChain (joinsRun · ·))
    (apart : runs.IsChain fun a b =>
      ∃ solid solid', joinsRun (a.getLast solid) (b.head solid') = false)
    (known : ∀ l ∈ lexemesFrom start runs, l.token.isError = false) :
    LaidOut start runs.flatten (lexemesFrom start runs) := by
  induction runs generalizing start with
  | nil => exact .done (by simp)
  | cons run runs ih =>
    simp only [List.mem_cons, not_or] at solid
    obtain ⟨chain, others⟩ := List.forall_mem_cons.mp chains
    obtain ⟨first, later⟩ := List.isChain_cons.mp apart
    have reads := reads_ofRun? (Ne.symm solid.1) chain
    simp only [lexemesFrom] at known ⊢
    split at known
    · rename_i token read
      rw [read] at reads
      obtain ⟨knownFirst, known⟩ := List.forall_mem_cons.mp known
      have prints := prints_iff.mpr ⟨reads, knownFirst⟩
      have parted := lt_start_of_head prints solid.2 others first known
      exact @LaidOut.next start token [] run _ _ (by simp) prints parted
        (ih solid.2 others later known)
    · rename_i unread
      rw [unread] at reads
      cases reads with
      | blank blank => exact (ih solid.2 others later known).blank_cons blank

end Runs

/-- A text is laid out from its lexemes, if all its tokens are known, and from no other list. -/
theorem laidOut_iff {text : String} {ls : List Lexeme} :
    LaidOut 0 text.toList ls ↔
      ls = lexemes text ∧ ∀ l ∈ ls, l.token.isError = false := by
  constructor
  · intro laid
    exact ⟨laid.lexemesFrom_eq.symm, laid.isError_eq_false⟩
  · rintro ⟨rfl, known⟩
    have laid := laidOut_lexemesFrom (List.nil_notMem_splitBy joinsRun text.toList)
      (fun run => List.isChain_of_mem_splitBy)
      (List.isChain_getLast_head_splitBy joinsRun text.toList) known
    rwa [List.flatten_splitBy] at laid

end ArrayCalc
