import ArrayCalc.Evaluation.Machine
import ArrayCalc.Proofs.Evaluation.Traced

/-! What one lexeme can do to the state of an evaluation. `Takes` says it once for all lexemes that
are taken in without a fault, with everything the machine has checked by then, and `Runs` chains it;
what holds along whole runs is derived from these two by induction. -/
namespace ArrayCalc

def Mark.bracket? : Mark → Option Bracket
  | .operator _ => none
  | .bracket b => some b

def Mark.operator? : Mark → Option Operator
  | .operator op => some op
  | .bracket _ => none

namespace State

def brackets (marks : List Mark) : List Bracket := marks.filterMap Mark.bracket?

@[simp] theorem brackets_nil : brackets [] = [] := rfl

@[simp] theorem brackets_operator (op : Operator) (marks : List Mark) :
    brackets (.operator op :: marks) = brackets marks := rfl

@[simp] theorem brackets_bracket (bracket : Bracket) (marks : List Mark) :
    brackets (.bracket bracket :: marks) = bracket :: brackets marks := rfl

@[simp] theorem brackets_operators (ops : List Operator) (marks : List Mark) :
    brackets (ops.map .operator ++ marks) = brackets marks := by
  induction ops with
  | nil => rfl
  | cons op ops ih => exact ih

def operators (marks : List Mark) : List Operator := marks.filterMap Mark.operator?

@[simp] theorem operators_nil : operators [] = [] := rfl

@[simp] theorem operators_operator (op : Operator) (marks : List Mark) :
    operators (.operator op :: marks) = op :: operators marks := rfl

@[simp] theorem operators_bracket (bracket : Bracket) (marks : List Mark) :
    operators (.bracket bracket :: marks) = operators marks := rfl

@[simp] theorem operators_operators (ops : List Operator) (marks : List Mark) :
    operators (ops.map .operator ++ marks) = ops ++ operators marks := by
  induction ops with
  | nil => rfl
  | cons op ops ih => exact congrArg (op :: ·) ih

/-- Operators `reduced` that pass a test are taken off the marks, each with one operand; a bracket,
an operator that does not pass, or nothing is left on top. -/
structure Reduces (passes : Operator → Bool) (operands : List Float) (marks : List Mark)
    (reduced : List Operator) (operands' : List Float) (marks' : List Mark) : Prop where
  marks_eq : marks = reduced.map .operator ++ marks'
  length_eq : operands.length = operands'.length + reduced.length
  pass : ∀ op ∈ reduced, passes op = true
  stop : ∀ op rest, marks' = .operator op :: rest → passes op = false

variable {passes : Operator → Bool} {truncating : Bool} {position : Nat}
  {operands operands' : List Float} {marks marks' : List Mark}

theorem length_of_reduce {op : Operator}
    (h : (reduce op truncating position operands).outcome = .ok operands') :
    operands.length = operands'.length + 1 := by
  match operands with
  | [] | [_] => simp [reduce] at h
  | right :: left :: operands =>
    simp only [reduce, Traced.outcome_bind_eq_ok_iff, Traced.outcome_pure, Except.ok.injEq] at h
    obtain ⟨result, _, rfl⟩ := h
    simp

theorem reduces_of_reduceWhile
    (h : (reduceWhile passes truncating position operands marks).outcome = .ok (operands', marks')) :
    ∃ reduced, Reduces passes operands marks reduced operands' marks' := by
  induction marks generalizing operands with
  | nil =>
    simp only [reduceWhile, Traced.outcome_pure, Except.ok.injEq, Prod.mk.injEq] at h
    obtain ⟨rfl, rfl⟩ := h
    exact ⟨[], rfl, rfl, by simp, by simp⟩
  | cons mark marks ih =>
    cases mark with
    | bracket bracket =>
      simp only [reduceWhile, Traced.outcome_pure, Except.ok.injEq, Prod.mk.injEq] at h
      obtain ⟨rfl, rfl⟩ := h
      exact ⟨[], rfl, rfl, by simp, by simp⟩
    | operator op =>
      simp only [reduceWhile] at h
      by_cases pass : passes op
      · rw [if_pos pass, Traced.outcome_bind_eq_ok_iff] at h
        obtain ⟨between, first, rest⟩ := h
        obtain ⟨reduced, reduces⟩ := ih rest
        have one := length_of_reduce first
        refine ⟨op :: reduced, ?_, ?_, ?_, reduces.stop⟩
        · simp [reduces.marks_eq]
        · simp [one, reduces.length_eq]
          omega
        · simpa [pass] using reduces.pass
      · rw [if_neg pass] at h
        simp only [Traced.outcome_pure, Except.ok.injEq, Prod.mk.injEq] at h
        obtain ⟨rfl, rfl⟩ := h
        refine ⟨[], rfl, rfl, by simp, ?_⟩
        intro op' rest eq
        simp_all

/-- A group that is closed is reduced down to its own bracket. -/
theorem reduceWhile_of_closeGroup {b : Bracket}
    (h : (closeGroup b position operands marks).outcome = .ok (operands', marks')) :
    (reduceWhile (fun _ => true) (b = .square) position operands marks).outcome =
      .ok (operands', .bracket b :: marks') := by
  simp only [closeGroup, Traced.outcome_bind_eq_ok_iff] at h
  obtain ⟨⟨between, top⟩, reducing, closing⟩ := h
  split at closing
  · rename_i opened below eq
    split at closing
    · rename_i same
      simp only [Traced.outcome_pure, Except.ok.injEq, Prod.mk.injEq] at closing eq
      obtain ⟨rfl, rfl⟩ := closing
      rw [reducing, eq, same]
    · simp at closing
  · simp at closing

theorem reduces_of_closeGroup {b : Bracket}
    (h : (closeGroup b position operands marks).outcome = .ok (operands', marks')) :
    ∃ reduced, Reduces (fun _ => true) operands marks reduced operands' (.bracket b :: marks') :=
  reduces_of_reduceWhile (reduceWhile_of_closeGroup h)

/-- Closing a group traces its reductions and nothing else. -/
theorem events_closeGroup (b : Bracket) (position : Nat) (operands : List Float)
    (marks : List Mark) : (closeGroup b position operands marks).events =
      (reduceWhile (fun _ => true) (b = .square) position operands marks).events := by
  refine Traced.events_bind_of_silent ?_
  rintro ⟨operands, marks⟩
  match marks with
  | [] | .operator _ :: _ => rfl
  | .bracket opened :: marks =>
    simp only
    split <;> rfl

/-- What taking in a lexeme without a fault makes of a state. -/
inductive Takes (table : Table) (lexeme : Lexeme) (following : Option Token) (s : State) :
    State → Prop where
  | integer {value : Nat} {operand : Float} (token : lexeme.token = .integer value)
      (exact : Number.ofInt? value = some operand) :
      Takes table lexeme following s
        { s with operands := operand :: s.operands, afterArrayName := false }
  | arrayName {name : String} (token : lexeme.token = .identifier name)
      (follows : following = some (.opening .square)) :
      Takes table lexeme following s
        { s with pending := (name, lexeme.start) :: s.pending, afterArrayName := true }
  | scalar {name : String} {stored : Int} {operand : Float}
      (token : lexeme.token = .identifier name) (follows : following ≠ some (.opening .square))
      (known : table.scalarValue? name = some stored)
      (exact : Number.ofInt? stored = some operand) :
      Takes table lexeme following s
        { s with operands := operand :: s.operands, afterArrayName := false }
  | operator {op : Operator} {reduced : List Operator} {operands : List Float} {marks : List Mark}
      (token : lexeme.token = .operator op)
      (reduces : Reduces (fun top => op.precedence ≤ top.precedence) s.operands s.marks reduced
        operands marks) :
      Takes table lexeme following s
        { s with operands, marks := .operator op :: marks, afterArrayName := false }
  | openingParen (token : lexeme.token = .opening .paren) :
      Takes table lexeme following s
        { s with marks := .bracket .paren :: s.marks, afterArrayName := false }
  | openingSquare (token : lexeme.token = .opening .square) (named : s.afterArrayName = true) :
      Takes table lexeme following s
        { s with marks := .bracket .square :: s.marks, afterArrayName := false }
  | closingParen {reduced : List Operator} {operands : List Float} {marks : List Mark}
      (token : lexeme.token = .closing .paren)
      (reduces : Reduces (fun _ => true) s.operands s.marks reduced operands
        (.bracket .paren :: marks)) :
      Takes table lexeme following s { s with operands, marks, afterArrayName := false }
  | closingSquare {reduced : List Operator} {operands : List Float} {marks : List Mark}
      {subscript value : Float} {name : String} {namePosition : Nat}
      {pending : List (String × Nat)} (token : lexeme.token = .closing .square)
      (reduces : Reduces (fun _ => true) s.operands s.marks reduced (subscript :: operands)
        (.bracket .square :: marks))
      (waiting : s.pending = (name, namePosition) :: pending)
      (read : (Operand.element table name namePosition subscript lexeme.start).outcome =
        .ok value) :
      Takes table lexeme following s
        { operands := value :: operands, marks, pending, afterArrayName := false }

theorem takes_of_step {table : Table} {lexeme : Lexeme} {following : Option Token} {s s' : State}
    (h : (step table lexeme following s).outcome = .ok s') : Takes table lexeme following s s' := by
  cases token : lexeme.token with
  | integer value =>
    simp only [step, token, Traced.outcome_bind_eq_ok_iff, Operand.literal,
      Traced.outcome_ofOption_eq_ok_iff, Traced.outcome_pure, Except.ok.injEq] at h
    obtain ⟨operand, exact, rfl⟩ := h
    exact .integer token exact
  | identifier name =>
    simp only [step, token] at h
    split at h
    · rename_i follows
      simp only [Traced.outcome_pure, Except.ok.injEq] at h
      subst h
      exact .arrayName token follows
    · rename_i follows
      simp only [Operand.scalar, Traced.outcome_bind_eq_ok_iff, Traced.outcome_ofOption_eq_ok_iff,
        Traced.outcome_pure, Except.ok.injEq] at h
      obtain ⟨operand, ⟨stored, known, exact⟩, rfl⟩ := h
      exact .scalar token follows known exact
  | operator op =>
    simp only [step, token, Traced.outcome_bind_eq_ok_iff, Traced.outcome_pure,
      Except.ok.injEq] at h
    obtain ⟨⟨operands, marks⟩, reducing, rfl⟩ := h
    obtain ⟨reduced, reduces⟩ := reduces_of_reduceWhile reducing
    exact .operator token reduces
  | opening b =>
    cases b with
    | paren =>
      simp only [step, token, Traced.outcome_pure, Except.ok.injEq] at h
      subst h
      exact .openingParen token
    | square =>
      simp only [step, token] at h
      split at h
      · rename_i named
        simp only [Traced.outcome_pure, Except.ok.injEq] at h
        subst h
        exact .openingSquare token named
      · simp at h
  | closing b =>
    cases b with
    | paren =>
      simp only [step, token, Traced.outcome_bind_eq_ok_iff, Traced.outcome_pure,
        Except.ok.injEq] at h
      obtain ⟨⟨operands, marks⟩, closing, rfl⟩ := h
      obtain ⟨reduced, reduces⟩ := reduces_of_closeGroup closing
      exact .closingParen token reduces
    | square =>
      simp only [step, token, Traced.outcome_bind_eq_ok_iff] at h
      obtain ⟨⟨operands, marks⟩, closing, resolving⟩ := h
      obtain ⟨reduced, reduces⟩ := reduces_of_closeGroup closing
      simp only [resolveSubscript] at resolving
      split at resolving
      · simp at resolving
      · simp at resolving
      · rename_i subscript operands name namePosition pending waiting
        simp only [Traced.outcome_bind_eq_ok_iff, Traced.outcome_pure, Except.ok.injEq] at resolving
        obtain ⟨value, read, rfl⟩ := resolving
        exact .closingSquare token reduces waiting read
  | oversized digits => simp [step, token] at h
  | foreign c => simp [step, token] at h

inductive Runs (table : Table) : List Lexeme → State → State → Prop where
  | nil (s : State) : Runs table [] s s
  | cons {lexeme : Lexeme} {rest : List Lexeme} {s between s' : State}
      (takes : Takes table lexeme (rest.head?.map Lexeme.token) s between)
      (others : Runs table rest between s') : Runs table (lexeme :: rest) s s'

theorem runs_of_run {table : Table} {ls : List Lexeme} {s s' : State}
    (h : (run table ls s).outcome = .ok s') : Runs table ls s s' := by
  induction ls generalizing s with
  | nil =>
    simp only [run, Traced.outcome_pure, Except.ok.injEq] at h
    subst h
    exact .nil s
  | cons lexeme rest ih =>
    simp only [run, Traced.outcome_bind_eq_ok_iff] at h
    obtain ⟨between, first, others⟩ := h
    exact .cons (takes_of_step first) (ih others)

/-- When all operators are taken off, only a bracket can be left on top. -/
theorem Reduces.eq_nil {reduced : List Operator}
    (h : Reduces (fun _ => true) operands marks reduced operands' marks')
    (noBracket : ∀ b rest, marks' ≠ .bracket b :: rest) : marks' = [] := by
  cases marks' with
  | nil => rfl
  | cons mark rest =>
    cases mark with
    | operator op => exact absurd (h.stop op rest rfl) (by simp)
    | bracket b => exact absurd rfl (noBracket b rest)

/-- An evaluation has a value if all that waits at its end is reduced to one operand. -/
theorem reduceWhile_of_finish {s : State} {result : Float}
    (h : (s.finish position).outcome = .ok result) :
    (reduceWhile (fun _ => true) false position s.operands s.marks).outcome =
      .ok ([result], []) := by
  simp only [finish, Traced.outcome_bind_eq_ok_iff] at h
  obtain ⟨⟨operands, marks⟩, reducing, ending⟩ := h
  obtain ⟨reduced, reduces⟩ := reduces_of_reduceWhile reducing
  split at ending
  · simp at ending
  · rename_i noBracket
    obtain rfl : marks = [] := reduces.eq_nil noBracket
    split at ending
    · rename_i single
      simp only [Traced.outcome_pure, Except.ok.injEq] at ending single
      rw [reducing, single, ending]
    · simp at ending
    · simp at ending

/-- The end of an evaluation traces its reductions and nothing else. -/
theorem events_finish (position : Nat) (s : State) : (s.finish position).events =
    (reduceWhile (fun _ => true) false position s.operands s.marks).events := by
  refine Traced.events_bind_of_silent ?_
  rintro ⟨operands, _ | ⟨op | opened, marks⟩⟩
  · rcases operands with _ | ⟨_, _ | ⟨_, _⟩⟩ <;> rfl
  · rcases operands with _ | ⟨_, _ | ⟨_, _⟩⟩ <;> rfl
  · rfl

/-- The state at the end of a text from which its value can be taken: one operand more than there
are operators, and no open bracket. -/
theorem finish_eq_ok {position : Nat} {s : State} {result : Float}
    (h : (s.finish position).outcome = .ok result) :
    brackets s.marks = [] ∧ s.operands.length = (operators s.marks).length + 1 := by
  obtain ⟨reduced, reduces⟩ := reduces_of_reduceWhile (reduceWhile_of_finish h)
  have count := reduces.length_eq
  rw [reduces.marks_eq, brackets_operators, operators_operators]
  simp only [List.length_singleton] at count
  simp only [brackets_nil, operators_nil, List.append_nil, true_and]
  omega

end State

/-- A text that has a value was taken in to its end. -/
theorem evaluate_eq_ok {text : String} {table : Table} {result : Float}
    (h : evaluate text table = .ok result) :
    ∃ s, State.Runs table (lexemes text) {} s ∧
      (s.finish text.utf8ByteSize).outcome = .ok result := by
  simp only [evaluate, evaluateTraced, Traced.outcome_bind_eq_ok_iff] at h
  obtain ⟨s, running, ending⟩ := h
  exact ⟨s, State.runs_of_run running, ending⟩

end ArrayCalc
