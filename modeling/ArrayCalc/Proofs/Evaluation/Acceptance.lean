import Mathlib.Control.Monad.Basic
import ArrayCalc.Proofs.Evaluation.Steps
import ArrayCalc.Proofs.Syntax.Alternation

/-! Which texts have a value. The machine refuses tokens it does not know, brackets that do not nest
and subscripts without a name, and counts its operands. It does not look whether operands and
operators alternate: that alone keeps what it accepts from being the grammar. -/
namespace ArrayCalc

/-- Lexemes that nest except that they close the given brackets, the first of them first. -/
inductive Closes : List Bracket → List Lexeme → Prop where
  | none {ls : List Lexeme} (h : Nested ls) : Closes [] ls
  | next {b : Bracket} {bs : List Bracket} {ls rs : List Lexeme} (start stop : Nat)
      (inside : Nested ls) (rest : Closes bs rs) :
      Closes (b :: bs) (ls ++ ⟨.closing b, start, stop⟩ :: rs)

/-- Whether a token is an operand of its own: an integer, or a name that no subscript follows. -/
def Token.isOperand (following : Option Token) : Token → Bool
  | .integer _ => true
  | .identifier _ => following ≠ some (.opening .square)
  | _ => false

def Token.isOperator : Token → Bool
  | .operator _ => true
  | _ => false

def operandCount : List Lexeme → Nat
  | [] => 0
  | l :: ls => (l.token.isOperand (ls.head?.map Lexeme.token)).toNat + operandCount ls

def operatorCount : List Lexeme → Nat
  | [] => 0
  | l :: ls => l.token.isOperator.toNat + operatorCount ls

variable {ls rs : List Lexeme} {l : Lexeme} {bs : List Bracket}

theorem Closes.flat (h : Closes bs ls) (plain : l.token.nesting = 0) : Closes bs (l :: ls) := by
  cases h with
  | none h => exact .none (.flat plain h)
  | next start stop inside rest => exact .next start stop (.flat plain inside) rest

theorem Closes.opening {b : Bracket} (h : Closes (b :: bs) ls) (token : l.token = .opening b) :
    Closes bs (l :: ls) := by
  obtain ⟨_, start₁, stop₁⟩ := l
  subst token
  cases h with
  | next start₂ stop₂ inside rest =>
    cases rest with
    | none h => exact .none (.group b start₁ stop₁ start₂ stop₂ inside h)
    | next start stop inside' rest =>
      have group := Nested.group b start₁ stop₁ start₂ stop₂ inside inside'
      simpa only [List.cons_append, List.append_assoc] using Closes.next start stop group rest

theorem Closes.closing {b : Bracket} (h : Closes bs ls) (token : l.token = .closing b) :
    Closes (b :: bs) (l :: ls) := by
  obtain ⟨_, start, stop⟩ := l
  subst token
  exact .next start stop .nil h

namespace State

variable {table : Table} {following : Option Token} {s s' : State}

theorem Takes.isError_eq_false (h : Takes table l following s s') : l.token.isError = false := by
  cases h <;> simp_all [Token.isError]

theorem Takes.closes (h : Takes table l following s s')
    (rest : Closes (brackets s'.marks) ls) : Closes (brackets s.marks) (l :: ls) := by
  cases h with
  | integer token | arrayName token | scalar token =>
    exact rest.flat (by rw [token]; rfl)
  | operator token reduces =>
    rw [reduces.marks_eq, brackets_operators]
    exact Closes.flat rest (by rw [token]; rfl)
  | openingParen token => exact Closes.opening rest token
  | openingSquare token => exact Closes.opening rest token
  | closingParen token reduces =>
    rw [reduces.marks_eq, brackets_operators]
    exact rest.closing token
  | closingSquare token reduces =>
    rw [reduces.marks_eq, brackets_operators]
    exact rest.closing token

theorem Takes.subscripted {before : Option Token} (h : Takes table l following s s')
    (named : s.afterArrayName = true → ∃ name, before = some (.identifier name)) :
    (l.token = .opening .square → ∃ name, before = some (.identifier name)) ∧
      (s'.afterArrayName = true → ∃ name, some l.token = some (.identifier name)) := by
  cases h <;> simp_all

/-- Lexemes that are taken in one after the other are known, close the brackets that are open, and
open subscripts after names only. -/
theorem Runs.shape {before : Option Token} (h : Runs table ls s s')
    (closed : brackets s'.marks = [])
    (named : s.afterArrayName = true → ∃ name, before = some (.identifier name)) :
    (∀ l ∈ ls, l.token.isError = false) ∧ Closes (brackets s.marks) ls ∧
      Subscripted before ls := by
  induction h generalizing before with
  | nil => exact ⟨by simp, closed ▸ .none .nil, trivial⟩
  | cons takes _ ih =>
    obtain ⟨follows, named'⟩ := takes.subscripted named
    obtain ⟨known, closes, subscripted⟩ := ih closed named'
    exact ⟨List.forall_mem_cons.mpr ⟨takes.isError_eq_false, known⟩, takes.closes closes,
      follows, subscripted⟩

/-- A step makes one operand of each operand token and uses one up for each reduction. -/
theorem Takes.count (h : Takes table l following s s') :
    s'.operands.length + l.token.isOperator.toNat + (operators s.marks).length =
      s.operands.length + (l.token.isOperand following).toNat + (operators s'.marks).length := by
  cases h with
  | integer token => simp [token, Token.isOperator, Token.isOperand]
  | arrayName token follows => simp [token, follows, Token.isOperator, Token.isOperand]
  | scalar token follows => simp [token, follows, Token.isOperator, Token.isOperand]
  | openingParen token | openingSquare token => simp [token, Token.isOperator, Token.isOperand]
  | operator token reduces | closingParen token reduces | closingSquare token reduces =>
    have taken := reduces.length_eq
    simp [token, Token.isOperator, Token.isOperand, reduces.marks_eq] at taken ⊢
    omega

theorem Runs.count (h : Runs table ls s s') :
    s'.operands.length + operatorCount ls + (operators s.marks).length =
      s.operands.length + operandCount ls + (operators s'.marks).length := by
  induction h with
  | nil => rfl
  | cons takes _ ih =>
    have one := takes.count
    simp only [operatorCount, operandCount]
    omega

end State

/-- A text that has a value is made of known tokens, its brackets nest, every subscript follows a
name, and there is one operand more than there are operators. -/
theorem shape_of_evaluate {text : String} {table : Table} {result : Float}
    (h : evaluate text table = .ok result) :
    (∀ l ∈ lexemes text, l.token.isError = false) ∧ Nested (lexemes text) ∧
      Subscripted none (lexemes text) ∧
      operandCount (lexemes text) = operatorCount (lexemes text) + 1 := by
  obtain ⟨s, runs, finish⟩ := evaluate_eq_ok h
  obtain ⟨closed, operands⟩ := State.finish_eq_ok finish
  obtain ⟨known, closes, subscripted⟩ : (∀ l ∈ lexemes text, l.token.isError = false) ∧
      Closes [] (lexemes text) ∧ Subscripted none (lexemes text) :=
    runs.shape closed (by simp)
  have nested : Nested (lexemes text) := by
    cases closes with
    | none nested => exact nested
  have count := runs.count
  simp only [State.operators_nil, List.length_nil] at count
  exact ⟨known, nested, subscripted, by omega⟩

/-- A text that has a value is made of known tokens, its brackets nest, every subscript follows a
name, and there is one operand more than there are operators. It is derivable exactly if operands
and operators alternate in it, which evaluation does not check. -/
theorem derivable_iff_alternates_of_evaluate {text : String} {table : Table} {result : Float}
    (h : evaluate text table = .ok result) :
    (∀ l ∈ lexemes text, l.token.isError = false) ∧ Nested (lexemes text) ∧
      Subscripted none (lexemes text) ∧
      operandCount (lexemes text) = operatorCount (lexemes text) + 1 ∧
      (Derivable (lexemes text) ↔ alternates false (lexemes text) = true) := by
  obtain ⟨known, nested, subscripted, count⟩ := shape_of_evaluate h
  refine ⟨known, nested, subscripted, count, ?_⟩
  rw [derivable_iff]
  constructor
  · intro derivable
    exact derivable.2.2.2
  · intro alternating
    exact ⟨known, nested, subscripted, alternating⟩

theorem derivable_iff_alternates_of_evaluate_postfix :
    evaluate "3*(1 2 +)" {} = .ok 9 ∧
      (∀ l ∈ lexemes "3*(1 2 +)", l.token.isError = false) ∧ Nested (lexemes "3*(1 2 +)") ∧
      Subscripted none (lexemes "3*(1 2 +)") ∧
      operandCount (lexemes "3*(1 2 +)") = operatorCount (lexemes "3*(1 2 +)") + 1 ∧
      (Derivable (lexemes "3*(1 2 +)") ↔ alternates false (lexemes "3*(1 2 +)") = true) := by
  have value : evaluate "3*(1 2 +)" {} = .ok 9 := by decide +kernel
  exact ⟨value, derivable_iff_alternates_of_evaluate value⟩

/-- Operands before their operator are accepted, though no tree spells them. -/
theorem evaluate_operands_before_operator :
    evaluate "1 2 +" {} = .ok 3 ∧ ¬ Derivable (lexemes "1 2 +") := by
  refine ⟨by decide +kernel, ?_⟩
  intro derivable
  have alternating := (derivable_iff.mp derivable).2.2.2
  have read : alternates false (lexemes "1 2 +") = false := by decide
  rw [read] at alternating
  contradiction

end ArrayCalc
