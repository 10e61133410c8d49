import ArrayCalc.Evaluation.Traced
import ArrayCalc.Number.Conversion

/-! What the parts of an expression stand for: literals, scalars, array elements and operations on
two operands. Each part is refused where its integer is beyond the exact range of numbers. -/
namespace ArrayCalc.Operand

def literal (value position : Nat) : Traced Float :=
  Traced.ofOption (.literalTooLarge position) (Number.ofInt? value)

def scalar (table : Table) (name : String) (position : Nat) : Traced Float := do
  let stored ← Traced.ofOption (.unknownVariable name .scalar position) (table.scalarValue? name)
  Traced.ofOption (.valueTooLarge name stored position) (Number.ofInt? stored)

/-- The array element that a subscript selects. The name is blamed at its own position, all else at
the closing bracket. -/
def element (table : Table) (name : String) (namePosition : Nat) (subscript : Float)
    (position : Nat) : Traced Float := do
  let array ← Traced.ofOption (.unknownVariable name .array namePosition) (table.array? name)
  let slot ← Traced.ofOption
    (.indexOutOfRange name (Number.truncate subscript) array.size position)
    (Number.slot? subscript array.size)
  let stored := array.values.getD slot 0
  let value ← Traced.ofOption (.valueTooLarge name stored position) (Number.ofInt? stored)
  Traced.tell (.read name slot value)
  pure value

/-- The result of an operation, rounded toward zero if `truncating`. -/
def combine (op : Operator) (truncating : Bool) (left right : Float) : Traced Float := do
  let exact := op.apply left right
  let result := if truncating then Number.truncate exact else exact
  Traced.tell (.reduced left op right result)
  pure result

end ArrayCalc.Operand
