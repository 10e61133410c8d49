import ArrayCalc.Evaluation.Traced
import ArrayCalc.Load.Record

/-! The journal of a session: what was discovered, which records were passed over, and each step of
an evaluation, as records with a level and a text. -/
namespace ArrayCalc

inductive JournalEntry where
  | discovered (scalars arrays : Nat) (text : String)
  | skipped (notice : LoadNotice)
  | evaluating (text : String)
  | traced (event : TraceEvent)
  | finished (text : String) (value : Float)
deriving DecidableEq, Repr

def LoadNotice.message : LoadNotice → String
  | unknownName name line => onLine line <| "skipping unknown variable '" ++ name ++ "'"
  | notScalar name line => onLine line <| "'" ++ name ++ "' is not a scalar, skipping"
  | notArray name line => onLine line <| "'" ++ name ++ "' is not an array, skipping"
where
  onLine (line : Nat) (remark : String) : String := "line " ++ toString line ++ ": " ++ remark

namespace JournalEntry

/-- The steps of an evaluation are for tracing, all else for debugging. -/
def level : JournalEntry → String
  | traced _ => "TRACE"
  | _ => "DEBUG"

def message : JournalEntry → String
  | discovered scalars arrays text =>
    "discovered " ++ toString scalars ++ " scalar(s) and " ++ toString arrays ++ " array(s) in '" ++
      text ++ "'"
  | skipped notice => notice.message
  | evaluating text => "evaluating '" ++ text ++ "'"
  | traced event => event.message
  | finished text value => "'" ++ text ++ "' = " ++ Number.text value

end JournalEntry

end ArrayCalc
