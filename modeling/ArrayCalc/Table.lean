/-! The variables of an expression with their stored integers. A table keeps scalars and arrays
apart, each in the order of arrival, and lets a name in only if neither side has it. Updates change
the entry of one name in place; one that cannot be made says why and leaves no trace. -/
namespace ArrayCalc

inductive VariableKind where
  | scalar
  | array
deriving DecidableEq, Repr

def VariableKind.word : VariableKind → String
  | scalar => "scalar"
  | array => "array"

structure Scalar where
  name : String
  value : Int := 0
deriving DecidableEq, Repr

/-- An array has no slots until storage is allocated. -/
structure ArrayVariable where
  name : String
  values : Array Int := #[]
deriving DecidableEq, Repr

def ArrayVariable.size (a : ArrayVariable) : Nat := a.values.size

structure Table where
  scalars : List Scalar := []
  arrays : List ArrayVariable := []
deriving DecidableEq, Repr

inductive Refusal where
  /-- The name to add is known already, in either namespace. -/
  | nameTaken
  /-- No variable of the kind asked for has the name. -/
  | unknownName
  /-- The array has no slot of that index. -/
  | noSuchSlot
  /-- The storage asked for is more than there can be. -/
  | noStorage
deriving DecidableEq, Repr

namespace Table

/-- The number of slots from which on storage is always refused. Fewer may be more than there is
storage for; a load that meets this is cut short. -/
def storageLimit : Nat := Nat.pow 2 60

/-- All names, scalars first. -/
def names (t : Table) : List String :=
  t.scalars.map Scalar.name ++ t.arrays.map ArrayVariable.name

def scalar? (t : Table) (name : String) : Option Scalar :=
  t.scalars.find? (·.name = name)

def array? (t : Table) (name : String) : Option ArrayVariable :=
  t.arrays.find? (·.name = name)

def kindOf? (t : Table) (name : String) : Option VariableKind :=
  if (t.scalar? name).isSome then some .scalar
  else if (t.array? name).isSome then some .array
  else none

def contains (t : Table) (name : String) : Bool := (t.kindOf? name).isSome

def scalarValue? (t : Table) (name : String) : Option Int := (t.scalar? name).map Scalar.value

def arrayValue? (t : Table) (name : String) (index : Nat) : Option Int :=
  (t.array? name).bind (·.values[index]?)

/-- The table with a new variable at the end of its kind: a zero, or an array without slots. -/
def add (t : Table) (kind : VariableKind) (name : String) : Except Refusal Table :=
  if t.contains name then .error .nameTaken
  else
    match kind with
    | .scalar => .ok { t with scalars := t.scalars ++ [{ name }] }
    | .array => .ok { t with arrays := t.arrays ++ [{ name }] }

def setScalar (t : Table) (name : String) (value : Int) : Except Refusal Table :=
  if (t.scalar? name).isSome then
    .ok { t with scalars := t.scalars.map fun s => if s.name = name then { s with value } else s }
  else .error .unknownName

def updateSlots (t : Table) (name : String) (change : Array Int → Array Int) : Table :=
  { t with
    arrays := t.arrays.map fun a =>
      if a.name = name then { a with values := change a.values } else a }

/-- The table with an array holding `size` zeros, whatever it held before. -/
def allocate (t : Table) (name : String) (size : Nat) : Except Refusal Table :=
  if (t.array? name).isNone then .error .unknownName
  else if storageLimit ≤ size then .error .noStorage
  else .ok (t.updateSlots name fun _ => Array.replicate size 0)

def setSlot (t : Table) (name : String) (index : Nat) (value : Int) : Except Refusal Table :=
  match t.array? name with
  | none => .error .unknownName
  | some a =>
    if index < a.size then .ok (t.updateSlots name (·.setIfInBounds index value))
    else .error .noSuchSlot

end Table

end ArrayCalc
