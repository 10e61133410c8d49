import ArrayCalc.Number.Conversion
import ArrayCalc.Proofs.Evaluation.Traced
import ArrayCalc.Proofs.Syntax.Tree

/-! The value of a syntax tree, from left to right by recursion on the tree, with the trace of its
operations and element reads. It knows no stacks. Names are read in a valuation, so that trees have
values in a table as well as in an environment. -/
namespace ArrayCalc

/-- What names stand for as scalars and as arrays, none for a name that is not known as such. -/
structure Valuation where
  scalar : String → Option Int
  array : String → Option (List Int)

namespace Valuation

def readScalar (v : Valuation) (name : String) (position : Nat) : Traced Float :=
  match v.scalar name with
  | none => Traced.fail (.unknownVariable name .scalar position)
  | some stored =>
    match Number.ofInt? stored with
    | none => Traced.fail (.valueTooLarge name stored position)
    | some value => pure value

/-- The element of an array under a subscript, which is converted to a slot first. -/
def readElement (v : Valuation) (name : String) (position : Nat) (subscript : Float)
    (closing : Nat) : Traced Float :=
  match v.array name with
  | none => Traced.fail (.unknownVariable name .array position)
  | some slots =>
    match Number.slot? subscript slots.length with
    | none =>
      Traced.fail (.indexOutOfRange name (Number.truncate subscript) slots.length closing)
    | some slot =>
      match Number.ofInt? (slots.getD slot 0) with
      | none => Traced.fail (.valueTooLarge name (slots.getD slot 0) closing)
      | some value => do
        Traced.tell (.read name slot value)
        pure value

theorem readScalar_ne_malformed (v : Valuation) (name : String) (start : Nat)
    (reason : Malformation) (position : Nat) :
    (v.readScalar name start).outcome ≠ .error (.malformed reason position) := by
  unfold readScalar
  split
  · simp
  · split <;> simp

theorem events_readScalar (v : Valuation) (name : String) (start : Nat) :
    (v.readScalar name start).events = [] := by
  unfold readScalar
  split
  · rfl
  · split <;> rfl

theorem readElement_ne_malformed (v : Valuation) (name : String) (start : Nat) (subscript : Float)
    (closing : Nat) (reason : Malformation) (position : Nat) :
    (v.readElement name start subscript closing).outcome ≠ .error (.malformed reason position) := by
  unfold readElement
  split
  · simp
  · split
    · simp
    · split <;> simp [Except.map]

end Valuation

def Table.valuation (t : Table) : Valuation where
  scalar := t.scalarValue?
  array name := (t.array? name).map fun a => a.values.toList

namespace Tree

def operate (op : Operator) (truncating : Bool) (left right : Float) : Traced Float := do
  let result := if truncating then Number.truncate (op.apply left right) else op.apply left right
  Traced.tell (.reduced left op right result)
  pure result

/-- The value of a tree. A subscript is valued `truncating`: it rounds the operation at its root and
that at the root of its last term. Left operands, groups and operands of products are never valued
so, nor is anything outside subscripts. -/
def value (v : Valuation) : {c : Category} → Tree c → (truncating : Bool) → Traced Float
  | _, .integer value position, _ =>
    match Number.ofInt? value with
    | none => Traced.fail (.literalTooLarge position)
    | some number => pure number
  | _, .scalar name position, _ => v.readScalar name position
  | _, .element name position subscript closing, _ => do
    let index ← subscript.value v true
    v.readElement name position index closing
  | _, .group inner, _ => inner.value v false
  | _, .ofFactor factor, _ => factor.value v false
  | _, .product left op right, truncating => do
    let x ← left.value v false
    let y ← right.value v false
    operate op truncating x y
  | _, .ofTerm term, truncating => term.value v truncating
  | _, .sum left op right, truncating => do
    let x ← left.value v false
    let y ← right.value v truncating
    operate op truncating x y

/-- A tree has a value or a fault of its parts; it is never malformed. -/
theorem outcome_value_ne_malformed {c : Category} (v : Valuation) (tree : Tree c)
    (truncating : Bool) (reason : Malformation) (position : Nat) :
    (tree.value v truncating).outcome ≠ .error (.malformed reason position) := by
  induction tree generalizing truncating with
  | integer => simp only [value]; split <;> simp
  | scalar => exact v.readScalar_ne_malformed _ _ _ _
  | element name start subscript closing ih =>
    simp [value, Traced.outcome_bind_eq_error_iff, ih, v.readElement_ne_malformed]
  | group inner ih | ofFactor inner ih | ofTerm inner ih => exact ih _
  | product left op right ihl ihr | sum left op right ihl ihr =>
    simp [value, operate, Traced.outcome_bind_eq_error_iff, ihl, ihr, Except.map]

end Tree

end ArrayCalc
