import ArrayCalc.Operator

/-! The tokens of an expression. A run of digits beyond 63 bits and a character outside the grammar
are tokens too, so that a text always has a token sequence; the evaluator refuses them. -/
namespace ArrayCalc

/-- The two kinds of bracket: parentheses group, square brackets hold a subscript. -/
inductive Bracket where
  | paren
  | square
deriving DecidableEq, Repr

namespace Bracket

def opening : Bracket → Char
  | paren => '('
  | square => '['

def closing : Bracket → Char
  | paren => ')'
  | square => ']'

end Bracket

inductive Token where
  | integer (value : Nat)
  | identifier (name : String)
  | operator (op : Operator)
  | opening (bracket : Bracket)
  | closing (bracket : Bracket)
  /-- A run of digits whose value does not fit 63 bits. -/
  | oversized (digits : String)
  /-- A character outside the grammar. -/
  | foreign (character : Char)
deriving DecidableEq, Repr

/-- A token with the bytes it takes in the text, from `start` up to but not including `stop`. -/
structure Lexeme where
  token : Token
  start : Nat
  stop : Nat
deriving DecidableEq, Repr

end ArrayCalc
