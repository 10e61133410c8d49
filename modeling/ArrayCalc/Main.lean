import ArrayCalc.CommandLine.Report

/-! The program: reads the files that its arguments name, prints the report and exits with its
code. Arguments that cannot be read end it with code 2. With the reading of the arguments it is the
outer layer, and nothing that is proved rests on it. -/
open ArrayCalc.CommandLine

/-- What is found at a path. A directory opens but cannot be read. -/
def readContent (path : String) : IO FileContent := do
  match ← (IO.FS.Handle.mk ⟨path⟩ .read).toBaseIO with
  | .error _ => return .missing
  | .ok handle =>
    match ← handle.readBinToEnd.toBaseIO with
    | .error _ => return .directory
    | .ok content => return .bytes content.toList

def main (arguments : List String) : IO UInt32 := do
  match request arguments with
  | .error e =>
    IO.eprintln e.message
    return 2
  | .ok request =>
    let contents ← request.paths.mapM fun path => do return (path, ← readContent path)
    let report := respond (fun path => (contents.lookup path).getD .missing) request
    IO.print report.outputText
    IO.eprint report.errorText
    return report.exitCode
