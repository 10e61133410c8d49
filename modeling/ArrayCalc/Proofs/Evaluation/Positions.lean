import ArrayCalc.Proofs.Evaluation.Traced
import ArrayCalc.Proofs.Token.Blanks
import ArrayCalc.Session

/-! Positions are only ever reported. Lexemes that are moved are evaluated as they were, and the
error that this ends with is moved alike. So the blanks of an unbroken text decide nothing but the
positions of its errors. -/
namespace ArrayCalc

variable {f : Nat → Nat} {α β : Type}

def EvalError.move (f : Nat → Nat) : EvalError → EvalError
  | unknownVariable name kind position => unknownVariable name kind (f position)
  | indexOutOfRange name index size position => indexOutOfRange name index size (f position)
  | malformed reason position => malformed reason (f position)
  | unexpectedCharacter text position => unexpectedCharacter text (f position)
  | literalTooLarge position => literalTooLarge (f position)
  | valueTooLarge name value position => valueTooLarge name value (f position)

/-- The failure with its position in the text moved; that of a load has none. -/
def Failure.move (f : Nat → Nat) : Failure → Failure
  | load e => load e
  | evaluation e => evaluation (e.move f)

def State.move (f : Nat → Nat) (s : State) : State :=
  { s with pending := s.pending.map fun entry => (entry.1, f entry.2) }

namespace Traced

def move (f : Nat → Nat) (c : Traced α) : Traced α :=
  ⟨c.events, c.outcome.mapError (EvalError.move f)⟩

@[simp] theorem move_pure (a : α) : (pure a : Traced α).move f = pure a := rfl

@[simp] theorem move_fail (e : EvalError) :
    (fail e : Traced α).move f = fail (e.move f) := rfl

@[simp] theorem move_tell (event : TraceEvent) : (tell event).move f = tell event := rfl

@[simp] theorem move_bind (c : Traced α) (g : α → Traced β) :
    (c >>= g).move f = c.move f >>= fun a => (g a).move f := by
  obtain ⟨events, outcome⟩ := c
  cases outcome <;> rfl

@[simp] theorem move_map (g : α → β) (c : Traced α) : (g <$> c).move f = g <$> c.move f := by
  obtain ⟨events, outcome⟩ := c
  cases outcome <;> rfl

@[simp] theorem move_ofOption (e : EvalError) (o : Option α) :
    (ofOption e o).move f = ofOption (e.move f) o := by
  cases o <;> rfl

end Traced

namespace Operand

theorem move_literal (value position : Nat) :
    (literal value position).move f = literal value (f position) := by
  simp [literal, EvalError.move]

theorem move_scalar (table : Table) (name : String) (position : Nat) :
    (scalar table name position).move f = scalar table name (f position) := by
  simp [scalar, EvalError.move]

theorem move_element (table : Table) (name : String) (namePosition : Nat) (subscript : Float)
    (position : Nat) : (element table name namePosition subscript position).move f =
      element table name (f namePosition) subscript (f position) := by
  simp [element, EvalError.move]

theorem move_combine (op : Operator) (truncating : Bool) (left right : Float) :
    (combine op truncating left right).move f = combine op truncating left right := by
  simp [combine]

end Operand

namespace State

theorem move_reduce (op : Operator) (truncating : Bool) (position : Nat) (operands : List Float) :
    (reduce op truncating position operands).move f =
      reduce op truncating (f position) operands := by
  match operands with
  | [] | [_] => rfl
  | right :: left :: operands => simp [reduce, Operand.move_combine]

theorem move_reduceWhile (passes : Operator → Bool) (truncating : Bool) (position : Nat)
    (operands : List Float) (marks : List Mark) :
    (reduceWhile passes truncating position operands marks).move f =
      reduceWhile passes truncating (f position) operands marks := by
  induction marks generalizing operands with
  | nil => rfl
  | cons mark marks ih =>
    cases mark with
    | bracket opened => rfl
    | operator op =>
      simp only [reduceWhile]
      split
      · simp [move_reduce, ih]
      · rfl

theorem move_closeGroup (bracket : Bracket) (position : Nat) (operands : List Float)
    (marks : List Mark) : (closeGroup bracket position operands marks).move f =
      closeGroup bracket (f position) operands marks := by
  simp only [closeGroup, Traced.move_bind, move_reduceWhile]
  congr 1
  funext ⟨operands, marks⟩
  match marks with
  | [] | .operator _ :: _ => rfl
  | .bracket opened :: marks =>
    simp only
    split <;> rfl

theorem move_resolveSubscript (table : Table) (position : Nat) (s : State) :
    State.move f <$> (resolveSubscript table position s).move f =
      resolveSubscript table (f position) (s.move f) := by
  obtain ⟨operands, marks, pending, after⟩ := s
  match operands, pending with
  | [], _ => rfl
  | _ :: _, [] => rfl
  | subscript :: operands, (name, namePosition) :: pending =>
    simp [resolveSubscript, State.move, Operand.move_element]

theorem move_step (table : Table) (l : Lexeme) (following : Option Token) (s : State) :
    State.move f <$> (step table l following s).move f =
      step table (l.move f) following (s.move f) := by
  obtain ⟨token, start, stop⟩ := l
  cases token with
  | integer value => simp [step, Lexeme.move, State.move, Operand.move_literal]
  | identifier name =>
    simp only [step, Lexeme.move]
    split
    · rfl
    · simp [State.move, Operand.move_scalar]
  | operator op => simp [step, Lexeme.move, State.move, move_reduceWhile]
  | opening bracket =>
    cases bracket with
    | paren => rfl
    | square =>
      obtain ⟨operands, marks, pending, after⟩ := s
      cases after <;> rfl
  | closing bracket =>
    cases bracket with
    | paren => simp [step, Lexeme.move, State.move, move_closeGroup]
    | square =>
      simp [step, Lexeme.move, State.move, move_closeGroup, move_resolveSubscript]
  | oversized digits => rfl
  | foreign c => rfl

theorem move_run (table : Table) (ls : List Lexeme) (s : State) :
    State.move f <$> (run table ls s).move f = run table (ls.map (Lexeme.move f)) (s.move f) := by
  induction ls generalizing s with
  | nil => rfl
  | cons l ls ih =>
    have next : (ls.map (Lexeme.move f)).head?.map Lexeme.token = ls.head?.map Lexeme.token := by
      cases ls <;> rfl
    simp only [List.map_cons, run, next, Traced.move_bind, map_bind, ih, ← move_step,
      bind_map_left]

theorem move_finish (position : Nat) (s : State) :
    (finish position s).move f = finish (f position) (s.move f) := by
  simp only [finish, Traced.move_bind, move_reduceWhile, State.move]
  congr 1
  funext ⟨operands, marks⟩
  match marks with
  | .bracket opened :: marks => rfl
  | [] | .operator _ :: _ => match operands with
    | [] | [_] | _ :: _ :: _ => rfl

end State

/-- An unbroken text evaluates as it does without its blanks, up to where an error is found. -/
theorem evaluateTraced_withoutBlanks {text : String} (unbroken : Text.Unbroken text.toList)
    (table : Table) : evaluateTraced (Text.withoutBlanks text) table =
      (evaluateTraced text table).move (Text.positionWithoutBlanks text) := by
  have start : State.move (Text.positionWithoutBlanks text) {} = {} := rfl
  rw [evaluateTraced, lexemes_withoutBlanks unbroken, ← start, ← State.move_run,
    ← Text.positionWithoutBlanks_end, evaluateTraced, Traced.move_bind, bind_map_left]
  simp only [State.move_finish]

/-- Deleting the blanks of an unbroken text changes neither its variables nor, over any value source,
its value or the failure, but for the position of an error, which the blanks before it move. -/
theorem evaluateSource_withoutBlanks {text : String} (unbroken : Text.Unbroken text.toList)
    (source : String) :
    discover (Text.withoutBlanks text) = discover text ∧
      evaluateSource (Text.withoutBlanks text) source =
        (evaluateSource text source).mapError (Failure.move (Text.positionWithoutBlanks text)) := by
  have same := discover_withoutBlanks text
  refine ⟨same, ?_⟩
  rw [evaluateSource, evaluateSource, same]
  cases fault : ((discover text).loadText source).fault with
  | some e => simp [Except.mapError, Failure.move]
  | none =>
    simp only [evaluate, evaluateTraced_withoutBlanks unbroken, Traced.move]
    generalize (evaluateTraced text ((discover text).loadText source).table).outcome = outcome
    cases outcome <;> rfl

theorem evaluateSource_withoutBlanks_foreign :
    Text.Unbroken "A [ ü ]".toList ∧
      evaluateSource "A [ ü ]" "" = .error (.evaluation (.unexpectedCharacter "ü" 4)) ∧
      evaluateSource "A[ü]" "" = .error (.evaluation (.unexpectedCharacter "ü" 2)) := by
  have unbroken : Text.Unbroken "A [ ü ]".toList := by decide +kernel
  have deleted : Text.withoutBlanks "A [ ü ]" = "A[ü]" := by decide +kernel
  have fails : evaluateSource "A [ ü ]" "" = .error (.evaluation (.unexpectedCharacter "ü" 4)) := by
    decide +kernel
  have position : Text.positionWithoutBlanks "A [ ü ]" 4 = 2 := by decide +kernel
  have moved := (evaluateSource_withoutBlanks unbroken "").2
  rw [deleted, fails] at moved
  refine ⟨unbroken, fails, moved.trans ?_⟩
  simp [Except.mapError, Failure.move, EvalError.move, position]

end ArrayCalc
