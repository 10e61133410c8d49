import ArrayCalc.Load.Record

/-! A whole value source: its records are applied line by line to a table, until the first fault.
What the lines before it changed stays. A source of bytes is cut into lines before it is decoded, so
a line that is no valid UTF-8 is a fault of that line alone. -/
namespace ArrayCalc

def linesOfText (text : String) : List (Option String) :=
  (text.toList.splitOn '\n').map fun line => some (String.ofList line)

/-- The lines of a byte sequence, split at line feeds; none for a line that is not valid UTF-8. -/
def linesOfBytes (bytes : List UInt8) : List (Option String) :=
  (bytes.splitOn 10).map fun line => String.fromUTF8? line.toByteArray

namespace Table

/-- Applies lines from the given line number on. -/
def loadLines (table : Table) (line : Nat) : List (Option String) → Loaded
  | [] => { table }
  | none :: _ => { table, fault := some (.unreadable .invalidEncoding) }
  | some text :: rest =>
    let first := Record.apply table line (Record.words text)
    match first.fault with
    | some _ => first
    | none =>
      let others := first.table.loadLines (line + 1) rest
      { others with notices := first.notices ++ others.notices }

def loadText (table : Table) (source : String) : Loaded := table.loadLines 1 (linesOfText source)

def loadBytes (table : Table) (source : List UInt8) : Loaded :=
  table.loadLines 1 (linesOfBytes source)

end Table

end ArrayCalc
