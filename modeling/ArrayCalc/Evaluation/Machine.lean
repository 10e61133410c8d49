import ArrayCalc.Evaluation.Operand
import ArrayCalc.Token.Lexer

/-! Evaluation in one pass over the lexemes. Operands wait on one stack, operators and open brackets
on a second, and array names whose subscript is open on a third. An operator first reduces those
before it that bind at least as tight, a closing bracket and the end all those of their group. The
reductions that a `]` forces are rounded toward zero, so that a subscript is an integer. -/
namespace ArrayCalc

/-- An entry of the operator stack. -/
inductive Mark where
  | operator (op : Operator)
  | bracket (bracket : Bracket)
deriving DecidableEq, Repr

/-- The state of an evaluation between two lexemes. Stacks have their top first. -/
structure State where
  operands : List Float := []
  marks : List Mark := []
  /-- Array names whose subscript is not closed yet, with their positions. -/
  pending : List (String × Nat) := []
  /-- Whether the last lexeme was the name of an array. -/
  afterArrayName : Bool := false
deriving DecidableEq, Repr

namespace State

/-- Replaces two operands by the result of an operation. The upper operand is the right one. -/
def reduce (op : Operator) (truncating : Bool) (position : Nat) : List Float → Traced (List Float)
  | right :: left :: operands => do
    let result ← Operand.combine op truncating left right
    pure (result :: operands)
  | _ => Traced.fail (.malformed .missingOperand position)

/-- Reduces the operators on top of the stack as long as they pass a test, up to a bracket. -/
def reduceWhile (passes : Operator → Bool) (truncating : Bool) (position : Nat) :
    List Float → List Mark → Traced (List Float × List Mark)
  | operands, .operator op :: marks =>
    if passes op then do
      let operands ← reduce op truncating position operands
      reduceWhile passes truncating position operands marks
    else pure (operands, .operator op :: marks)
  | operands, marks => pure (operands, marks)

/-- Reduces the group that a bracket closes and takes its opening bracket off. -/
def closeGroup (bracket : Bracket) (position : Nat) (operands : List Float) (marks : List Mark) :
    Traced (List Float × List Mark) := do
  let (operands, marks) ←
    reduceWhile (fun _ => true) (bracket = .square) position operands marks
  match marks with
  | .bracket opened :: marks =>
    if opened = bracket then pure (operands, marks)
    else Traced.fail (.malformed (.wrongBracket bracket) position)
  | _ => Traced.fail (.malformed (.unmatched bracket) position)

/-- Replaces the subscript on top of the operands by the element of the innermost array name. -/
def resolveSubscript (table : Table) (position : Nat) (s : State) : Traced State :=
  match s.operands, s.pending with
  | [], _ => Traced.fail (.malformed .missingOperand position)
  | _, [] => Traced.fail (.malformed .namelessSubscript position)
  | subscript :: operands, (name, namePosition) :: pending => do
    let value ← Operand.element table name namePosition subscript position
    pure { s with operands := value :: operands, pending }

/-- Takes in one lexeme, looking at the token that follows it: an identifier before `[` is the name
of an array. -/
def step (table : Table) (lexeme : Lexeme) (following : Option Token) (s : State) :
    Traced State :=
  let position := lexeme.start
  let next := { s with afterArrayName := false }
  match lexeme.token with
  | .integer value => do
    let operand ← Operand.literal value position
    pure { next with operands := operand :: s.operands }
  | .identifier name =>
    if following = some (.opening .square) then
      pure { s with pending := (name, position) :: s.pending, afterArrayName := true }
    else do
      let operand ← Operand.scalar table name position
      pure { next with operands := operand :: s.operands }
  | .operator op => do
    let (operands, marks) ←
      reduceWhile (fun top => op.precedence ≤ top.precedence) false position s.operands s.marks
    pure { next with operands, marks := .operator op :: marks }
  | .opening .paren => pure { next with marks := .bracket .paren :: s.marks }
  | .opening .square =>
    if s.afterArrayName then pure { next with marks := .bracket .square :: s.marks }
    else Traced.fail (.malformed .strayOpening position)
  | .closing .paren => do
    let (operands, marks) ← closeGroup .paren position s.operands s.marks
    pure { next with operands, marks }
  | .closing .square => do
    let (operands, marks) ← closeGroup .square position s.operands s.marks
    resolveSubscript table position { next with operands, marks }
  | .oversized _ => Traced.fail (.literalTooLarge position)
  | .foreign c => Traced.fail (.unexpectedCharacter (String.singleton c) position)

def run (table : Table) : List Lexeme → State → Traced State
  | [], s => pure s
  | lexeme :: rest, s => do
    let s ← step table lexeme (rest.head?.map Lexeme.token) s
    run table rest s

/-- Reduces what is left at the end of the text to a single operand. -/
def finish (position : Nat) (s : State) : Traced Float := do
  let (operands, marks) ← reduceWhile (fun _ => true) false position s.operands s.marks
  match marks with
  | .bracket opened :: _ => Traced.fail (.malformed (.unclosed opened) position)
  | _ =>
    match operands with
    | [result] => pure result
    | [] => Traced.fail (.malformed .empty position)
    | _ => Traced.fail (.malformed .unjoinedOperands position)

end State

def evaluateTraced (text : String) (table : Table) : Traced Float := do
  let s ← State.run table (lexemes text) {}
  s.finish text.utf8ByteSize

def evaluate (text : String) (table : Table) : Except EvalError Float :=
  (evaluateTraced text table).outcome

end ArrayCalc
