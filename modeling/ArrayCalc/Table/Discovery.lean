import ArrayCalc.Table
import ArrayCalc.Text.Blank

/-! Finding the variables of an expression without evaluating it. Blanks are deleted first, so a
name may be spaced out. The longest runs of characters other than operators and brackets are the
candidates; one that stands before `[` names an array and any other a scalar, unless it is a
constant. The first use of a name decides. -/
namespace ArrayCalc

namespace Discovery

/-- A character that ends a name: an operator or a bracket. -/
def isDelimiter (c : Char) : Bool := c ∈ ['*', '+', '-', '/', '(', ')', '[', ']']

def joinsCandidate (a b : Char) : Bool := !isDelimiter a && !isDelimiter b

/-- Whether a run of characters is a name: no delimiter, and not a constant. -/
def isName (run : List Char) : Bool :=
  !run.any isDelimiter && !run.all Char.isDigit

/-- The kind of a name that stands before the given runs. -/
def kindBefore (following : List (List Char)) : VariableKind :=
  if following.head? = some ['['] then .array else .scalar

/-- The names among consecutive runs, each with the kind of this use of it. -/
def uses : List (List Char) → List (String × VariableKind)
  | [] => []
  | run :: following =>
    if isName run then (String.ofList run, kindBefore following) :: uses following
    else uses following

end Discovery

open Discovery in
def nameUses (text : String) : List (String × VariableKind) :=
  uses ((text.toList.filter fun c => !Text.isBlank c).splitBy joinsCandidate)

/-- The table with a variable added, unless its name is known. -/
def Table.register (t : Table) (use : String × VariableKind) : Table :=
  match t.add use.2 use.1 with
  | .ok extended => extended
  | .error _ => t

/-- The table of the variables that a text names, all zero or without slots. -/
def discover (text : String) : Table := (nameUses text).foldl Table.register {}

end ArrayCalc
