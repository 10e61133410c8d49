import ArrayCalc.Proofs.Syntax.Value

/-! Integer evaluation of syntax trees. Integers have no bounds and subscripts are looked up as they
are, so that a subscript outside its array is the only fault. Names that are not known stand for
zero and for an array without slots. -/
namespace ArrayCalc

/-- The operation on integers. Division rounds toward zero; it is not exact. -/
def Operator.applyExact : Operator → Int → Int → Int
  | add, left, right => left + right
  | sub, left, right => left - right
  | mul, left, right => left * right
  | div, left, right => left.tdiv right

/-- A subscript that lies outside its array, with the position of its closing bracket. -/
structure OutOfRange where
  name : String
  index : Int
  size : Nat
  position : Nat
deriving DecidableEq, Repr

namespace Valuation

def integer (v : Valuation) (name : String) : Int := (v.scalar name).getD 0

def slots (v : Valuation) (name : String) : List Int := (v.array name).getD []

def integerAt (v : Valuation) (name : String) (index : Int) (closing : Nat) :
    Except OutOfRange Int :=
  if 0 ≤ index ∧ index < (v.slots name).length then .ok ((v.slots name).getD index.toNat 0)
  else .error ⟨name, index, (v.slots name).length, closing⟩

end Valuation

namespace Tree

/-- The integer that a tree stands for, from left to right and from the inside out, or the first
subscript outside its array. -/
def exact (v : Valuation) : {c : Category} → Tree c → Except OutOfRange Int
  | _, .integer value _ => .ok value
  | _, .scalar name _ => .ok (v.integer name)
  | _, .element name _ subscript closing => do
    let index ← subscript.exact v
    v.integerAt name index closing
  | _, .group inner => inner.exact v
  | _, .ofFactor factor => factor.exact v
  | _, .product left op right => do
    let x ← left.exact v
    let y ← right.exact v
    .ok (op.applyExact x y)
  | _, .ofTerm term => term.exact v
  | _, .sum left op right => do
    let x ← left.exact v
    let y ← right.exact v
    .ok (op.applyExact x y)

/-- The integers that the parts of a tree stand for, the tree included, up to the first subscript
outside its array. What stands to the right of that subscript is not evaluated. -/
def exactValues (v : Valuation) : {c : Category} → Tree c → List Int
  | _, .integer value _ => [(value : Int)]
  | _, .scalar name _ => [v.integer name]
  | _, .element name position subscript closing =>
    subscript.exactValues v ++
      ((element name position subscript closing).exact v).toOption.toList
  | _, .group inner => inner.exactValues v
  | _, .ofFactor factor => factor.exactValues v
  | _, .product left op right =>
    left.exactValues v ++ (if (left.exact v).isOk then right.exactValues v else []) ++
      ((product left op right).exact v).toOption.toList
  | _, .ofTerm term => term.exactValues v
  | _, .sum left op right =>
    left.exactValues v ++ (if (left.exact v).isOk then right.exactValues v else []) ++
      ((sum left op right).exact v).toOption.toList

/-- The last of the values is that of the tree. -/
theorem mem_exactValues {c : Category} {v : Valuation} {n : Int} (tree : Tree c)
    (h : tree.exact v = .ok n) : n ∈ tree.exactValues v := by
  induction tree with
  | integer | scalar =>
    rw [exact, Except.ok.injEq] at h
    simp [exactValues, h]
  | element | product | sum => simp [exactValues, h, Except.toOption]
  | group inner ih | ofFactor inner ih | ofTerm inner ih => exact ih h

end Tree

end ArrayCalc
