import ArrayCalc.Load.Error
import ArrayCalc.Number.Conversion
import ArrayCalc.Table
import ArrayCalc.Text.Blank
import ArrayCalc.Text.Integer

/-! One record of a value source, and what it does to a table. A record is a line of words: a name
and a value for a scalar, or a name, a size and pairs `(index,value)` for an array. A record for a
name that the table does not know, or knows as the other kind, is skipped with a notice. A fault
keeps what the record has changed before it. -/
namespace ArrayCalc

/-- A record that was passed over. -/
inductive LoadNotice where
  | unknownName (name : String) (line : Nat)
  | notScalar (name : String) (line : Nat)
  | notArray (name : String) (line : Nat)
deriving DecidableEq, Repr

/-- What became of a table under a source, or under one record of it. -/
structure Loaded where
  table : Table
  notices : List LoadNotice := []
  fault : Option LoadError := none
deriving DecidableEq, Repr

namespace Record

def words (line : String) : List String :=
  (Text.words Text.isWhitespace line.toList).map String.ofList

def separatesNumbers (c : Char) : Bool := Text.isBlank c || c ∈ ['(', ',', ')']

/-- The numbers of an array record, index and value in turn, as they stand in the words after its
size. How words and brackets group them does not matter. -/
def numbers (pairs : List String) : List String :=
  pairs.flatMap fun word => (Text.words separatesNumbers word.toList).map String.ofList

/-- The slots to write with their values, read two numbers at a time up to the first fault. -/
def assignments (name : String) (size line : Nat) :
    List String → List (Nat × Int) × Option LoadError
  | [] => ([], none)
  | [_] => ([], some (.incomplete name line))
  | indexWord :: valueWord :: rest =>
    match Text.int32? indexWord with
    | none => ([], some (.notInteger indexWord line))
    | some index =>
      match Text.int32? valueWord with
      | none => ([], some (.notInteger valueWord line))
      | some value =>
        match Number.slotOfInt? index size with
        | none => ([], some (.indexOutOfRange name index size line))
        | some slot =>
          let (others, fault) := assignments name size line rest
          ((slot, value) :: others, fault)

def write (values : Array Int) (changes : List (Nat × Int)) : Array Int :=
  changes.foldl (fun values change => values.setIfInBounds change.1 change.2) values

/-- Applies a record of two words. -/
def applyScalar (table : Table) (line : Nat) (name valueWord : String) : Loaded :=
  match Text.int32? valueWord with
  | none => { table, fault := some (.notInteger valueWord line) }
  | some value =>
    match table.setScalar name value with
    | .ok changed => { table := changed }
    | .error _ => { table, notices := [.notScalar name line] }

/-- Applies a record of at least three words: zeros of the declared size, then the pairs. -/
def applyArray (table : Table) (line : Nat) (name sizeWord : String) (pairs : List String) :
    Loaded :=
  match Text.size? sizeWord with
  | none => { table, fault := some (.notInteger sizeWord line) }
  | some size =>
    match table.allocate name size with
    | .ok cleared =>
      let (changes, fault) := assignments name size line (numbers pairs)
      { table := cleared.updateSlots name (write · changes), fault }
    | .error .noStorage => { table, fault := some (.noStorage name size line) }
    | .error _ => { table, notices := [.notArray name line] }

def apply (table : Table) (line : Nat) : List String → Loaded
  | [] => { table }
  | name :: rest =>
    if !table.contains name then { table, notices := [.unknownName name line] }
    else
      match rest with
      | [] => { table, fault := some (.incomplete name line) }
      | [value] => applyScalar table line name value
      | size :: pairs => applyArray table line name size pairs

end Record

end ArrayCalc
