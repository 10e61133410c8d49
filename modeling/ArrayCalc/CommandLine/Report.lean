import ArrayCalc.CommandLine.Arguments
import ArrayCalc.Session

/-! What the program prints and how it exits, given the contents of the files it is told to read.
Results go to the output and a single complaint to the error output; the listing is printed once the
values are loaded, so it stands even if the evaluation then fails. -/
namespace ArrayCalc.CommandLine

inductive FileContent where
  | missing
  | directory
  | bytes (content : List UInt8)
deriving DecidableEq, Repr

/-- Lines for the output, at most one line for the error output, and the exit code. -/
structure Report where
  output : List String := []
  complaint : Option String := none
  exitCode : UInt32 := 0
deriving DecidableEq, Repr

namespace Report

def failure (output : List String) (complaint : String) : Report :=
  { output, complaint := some complaint, exitCode := 1 }

private def unlines (lines : List String) : String := String.join (lines.map (· ++ "\n"))

def outputText (r : Report) : String := unlines r.output

def errorText (r : Report) : String := unlines r.complaint.toList

end Report

def cannotRead (what path : String) : String :=
  "Failed to read the " ++ what ++ " file '" ++ path ++ "'. Perhaps this file does not exist?"

/-- The text of the expression: the argument itself, or the content of the file of that name
without the whitespace at its ends. -/
def expressionText (read : String → FileContent) (o : Options) : Option String :=
  if o.fromFile then
    match read o.expression with
    | .bytes content =>
      (String.fromUTF8? content.toByteArray).map fun text =>
        String.ofList (Text.trim text.toList)
    | _ => none
  else some o.expression

/-- Loads the file of values, if there is one to load. The path alone is reported if nothing can be
opened there; a directory can be opened but not read. -/
def loadValues (read : String → FileContent) (o : Options) (table : Table) :
    Except String Loaded :=
  match o.values with
  | none => .ok { table }
  | some path =>
    match read path with
    | .missing => .error path
    | .directory => .ok { table, fault := some (.unreadable .isDirectory) }
    | .bytes content => .ok (table.loadBytes content)

def reportValue (o : Options) (text : String) (table : Table) : Report :=
  let listing := if o.list then table.listing else []
  match evaluate text table with
  | .ok value => { output := listing ++ [Number.text value] }
  | .error e => .failure listing e.message

def report (read : String → FileContent) (o : Options) : Report :=
  match expressionText read o with
  | none => .failure [] (cannotRead "expression" o.expression)
  | some text =>
    match loadValues read o (discover text) with
    | .error path => .failure [] (cannotRead "values" path)
    | .ok loaded =>
      match loaded.fault with
      | some e => .failure [] e.message
      | none => reportValue o text loaded.table

def versionLine : String := "subscripta 0.1.0"

def helpLines : List String :=
  ["Single-pass evaluator for integer arithmetic expressions with scalar and array variables",
   "",
   "Usage: subscripta [OPTIONS] <EXPRESSION>",
   "",
   "Arguments:",
   "  <EXPRESSION>  ",
   "",
   "Options:",
   "  -f, --file           Treat `expression` as the path of a file holding the expression",
   "  -v, --values <PATH>  File with variable values, one `name value` or " ++
     "`name size (index,value)...` record per line",
   "  -l, --list           Print the discovered scalars and arrays before the result",
   "  -h, --help           Print help",
   "  -V, --version        Print version"]

def respond (read : String → FileContent) : Request → Report
  | .help => { output := helpLines }
  | .version => { output := [versionLine] }
  | .evaluate o => report read o

def Request.paths : Request → List String
  | .evaluate o => (if o.fromFile then [o.expression] else []) ++ o.values.toList
  | _ => []

end ArrayCalc.CommandLine
