/-! The four binary operators. Multiplication and division bind tighter than addition and
subtraction; all compute on binary64 numbers, so a division by zero has a result. -/
namespace ArrayCalc

inductive Operator where
  | add
  | sub
  | mul
  | div
deriving DecidableEq, Repr

namespace Operator

def symbol : Operator → Char
  | add => '+'
  | sub => '-'
  | mul => '*'
  | div => '/'

def precedence : Operator → Nat
  | add | sub => 1
  | mul | div => 2

def apply : Operator → Float → Float → Float
  | add, left, right => left + right
  | sub, left, right => left - right
  | mul, left, right => left * right
  | div, left, right => left / right

end Operator

end ArrayCalc
