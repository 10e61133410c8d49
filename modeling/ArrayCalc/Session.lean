import ArrayCalc.Evaluation.Machine
import ArrayCalc.Journal
import ArrayCalc.Load.Source
import ArrayCalc.Table.Discovery
import ArrayCalc.Table.Listing

/-! An expression together with the variables known of it. A session starts with no variables;
discovery finds them, loads fill them, and evaluation reads them without changing them. -/
namespace ArrayCalc

structure Session where
  text : String
  table : Table := {}
deriving DecidableEq, Repr

inductive Failure where
  | load (e : LoadError)
  | evaluation (e : EvalError)
deriving DecidableEq, Repr

def Failure.message : Failure → String
  | load e => e.message
  | evaluation e => e.message

namespace Session

/-- Finds the variables anew; values that were loaded are lost. -/
def discover (s : Session) : Session := { s with table := ArrayCalc.discover s.text }

def loadText (s : Session) (source : String) : Loaded := s.table.loadText source

def loadBytes (s : Session) (source : List UInt8) : Loaded := s.table.loadBytes source

def evaluate (s : Session) : Except EvalError Float := ArrayCalc.evaluate s.text s.table

end Session

/-- The value of an expression over the variables that a value source gives it. -/
def evaluateSource (text source : String) : Except Failure Float :=
  let loaded := (discover text).loadText source
  match loaded.fault with
  | some e => .error (.load e)
  | none =>
    match evaluate text loaded.table with
    | .ok value => .ok value
    | .error e => .error (.evaluation e)

def journal (text source : String) : List JournalEntry :=
  let table := discover text
  let loaded := table.loadText source
  let loading :=
    .discovered table.scalars.length table.arrays.length text :: loaded.notices.map .skipped
  match loaded.fault with
  | some _ => loading
  | none =>
    let evaluation := evaluateTraced text loaded.table
    let ending :=
      match evaluation.outcome with
      | .ok value => [.finished text value]
      | .error _ => []
    loading ++ .evaluating text :: evaluation.events.map .traced ++ ending

end ArrayCalc
