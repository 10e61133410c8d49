/-! The faults of a value source, each with the line it was found on, and their texts. -/
namespace ArrayCalc

inductive ReadFailure where
  | invalidEncoding
  | isDirectory
deriving DecidableEq, Repr

inductive LoadError where
  /-- A word that must be an integer is not, or does not fit 32 bits. -/
  | notInteger (word : String) (line : Nat)
  /-- A record ends before its last number. -/
  | incomplete (name : String) (line : Nat)
  /-- A pair names a slot outside the size that its record declares. -/
  | indexOutOfRange (name : String) (index : Int) (size : Nat) (line : Nat)
  /-- There is no storage for an array of the declared size. -/
  | noStorage (name : String) (size : Nat) (line : Nat)
  | unreadable (failure : ReadFailure)
deriving DecidableEq, Repr

def ReadFailure.message : ReadFailure → String
  | invalidEncoding => "stream did not contain valid UTF-8"
  | isDirectory => "Is a directory (os error 21)"

namespace LoadError

private def onLine (line : Nat) (problem : String) : String :=
  "Error on line " ++ toString line ++ ": " ++ problem

def message : LoadError → String
  | notInteger word line => onLine line <| "'" ++ word ++ "' is not a valid integer."
  | incomplete name line => onLine line <| "Record for '" ++ name ++ "' is incomplete."
  | indexOutOfRange name index size line =>
    onLine line <| "Index " ++ toString index ++ " is out of range for array '" ++ name ++
      "' of size " ++ toString size ++ "."
  | noStorage name size line =>
    onLine line <| "Cannot allocate " ++ toString size ++ " slots for array '" ++ name ++ "'."
  | unreadable failure => "Failed to read variable values: " ++ failure.message

end LoadError

end ArrayCalc
