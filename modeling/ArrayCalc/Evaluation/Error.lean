import ArrayCalc.Number.Text
import ArrayCalc.Table
import ArrayCalc.Token

/-! The faults of an evaluation, each with the byte it was found at, and their texts. -/
namespace ArrayCalc

inductive Malformation where
  /-- An operator or a subscript finds no operand. -/
  | missingOperand
  /-- A subscript opens after something other than an array name. -/
  | strayOpening
  /-- A bracket closes that was never opened. -/
  | unmatched (bracket : Bracket)
  /-- A bracket closes while one of the other kind is open. -/
  | wrongBracket (bracket : Bracket)
  /-- A subscript closes that belongs to no array. -/
  | namelessSubscript
  /-- A bracket is still open at the end. -/
  | unclosed (bracket : Bracket)
  /-- There is nothing to evaluate. -/
  | empty
  /-- Operands are left over at the end. -/
  | unjoinedOperands
deriving DecidableEq, Repr

inductive EvalError where
  /-- The table has no variable of that name and kind. The position is that of the name. -/
  | unknownVariable (name : String) (kind : VariableKind) (position : Nat)
  /-- A subscript lies outside its array. The index is without fraction; the position is that of
  the closing bracket. -/
  | indexOutOfRange (name : String) (index : Float) (size : Nat) (position : Nat)
  | malformed (reason : Malformation) (position : Nat)
  | unexpectedCharacter (text : String) (position : Nat)
  /-- An integer in the text is beyond the exact range of numbers. -/
  | literalTooLarge (position : Nat)
  /-- A stored integer is beyond the exact range of numbers. -/
  | valueTooLarge (name : String) (value : Int) (position : Nat)
deriving DecidableEq, Repr

namespace Malformation

private def quoted (c : Char) : String := "'" ++ String.singleton c ++ "'"

def details : Malformation → String
  | missingOperand => "missing operand"
  | strayOpening => "'[' is not preceded by an array name"
  | unmatched bracket => "unmatched " ++ quoted bracket.closing
  | wrongBracket bracket => quoted bracket.closing ++ " closes the wrong bracket"
  | namelessSubscript => "subscript without an array name"
  | unclosed bracket => "unclosed " ++ quoted bracket.opening
  | empty => "empty expression"
  | unjoinedOperands => "operands without an operator between them"

end Malformation

namespace EvalError

private def atPosition (position : Nat) (problem : String) : String :=
  "Error at position " ++ toString position ++ ": " ++ problem

def malformedMessage (details : String) (position : Nat) : String :=
  atPosition position <| "Malformed expression: " ++ details ++ "."

def message : EvalError → String
  | unknownVariable name kind position =>
    atPosition position <| "Unknown " ++ kind.word ++ " variable '" ++ name ++ "'."
  | indexOutOfRange name index size position =>
    atPosition position <| "Index " ++ Number.text index ++ " is out of range for array '" ++ name ++
      "' of size " ++ toString size ++ "."
  | malformed reason position => malformedMessage reason.details position
  | unexpectedCharacter text position =>
    atPosition position <| "Unexpected character: " ++ text ++ "."
  | literalTooLarge position => atPosition position "Literal is too large."
  | valueTooLarge name value position =>
    atPosition position <| "Value " ++ toString value ++ " of variable '" ++ name ++
      "' is too large."

end EvalError

end ArrayCalc
