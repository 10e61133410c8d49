/-! Reading the arguments of the command line, a part of the outer layer. Nothing that is proved
rests on it: statements about the program are about requests, however arguments come to be one.
Arguments are read from left to right and the first fault ends the reading; a request for help or
for the version is met as soon as it is read. Options may stand before and after the expression,
short ones may be joined, and `--` ends them. -/
namespace ArrayCalc.CommandLine

structure Options where
  /-- Whether the expression is the path of a file that holds it. -/
  fromFile : Bool := false
  /-- Whether to print the variables before the result. -/
  list : Bool := false
  /-- The path of a file with values of variables. -/
  values : Option String := none
  expression : String
deriving DecidableEq, Repr

inductive Request where
  | help
  | version
  | evaluate (options : Options)
deriving DecidableEq, Repr

inductive Flag where
  | file
  | list
  | values
  | help
  | version
deriving DecidableEq, Repr

def Flag.name : Flag → String
  | file => "--file"
  | list => "--list"
  | values => "--values"
  | help => "--help"
  | version => "--version"

def Flag.ofLetter? : Char → Option Flag
  | 'f' => some file
  | 'l' => some list
  | 'v' => some values
  | 'h' => some help
  | 'V' => some version
  | _ => none

def Flag.ofWord? : String → Option Flag
  | "file" => some file
  | "list" => some list
  | "values" => some values
  | "help" => some help
  | "version" => some version
  | _ => none

inductive UsageError where
  | missingExpression
  | unexpectedArgument (argument : String)
  | unknownOption (argument : String)
  | repeatedOption (flag : Flag)
  | unexpectedValue (flag : Flag)
  | missingValue (flag : Flag)
deriving DecidableEq, Repr

def UsageError.message : UsageError → String
  | missingExpression => "error: an expression is required"
  | unexpectedArgument argument => "error: unexpected argument '" ++ argument ++ "'"
  | unknownOption argument => "error: unknown option '" ++ argument ++ "'"
  | repeatedOption flag => "error: " ++ flag.name ++ " is given more than once"
  | unexpectedValue flag => "error: " ++ flag.name ++ " takes no value"
  | missingValue flag => "error: " ++ flag.name ++ " needs a value"

structure Draft where
  fromFile : Bool := false
  list : Bool := false
  values : Option String := none
  expression : Option String := none
deriving DecidableEq, Repr

inductive Progress where
  | reading (draft : Draft)
  | awaitingValue (draft : Draft)
  | settled (request : Request)
deriving DecidableEq, Repr

namespace Draft

def setValues (d : Draft) (path : String) : Except UsageError Draft :=
  if d.values.isSome then .error (.repeatedOption .values) else .ok { d with values := some path }

def setExpression (d : Draft) (argument : String) : Except UsageError Draft :=
  if d.expression.isSome then .error (.unexpectedArgument argument)
  else .ok { d with expression := some argument }

def setFlag (d : Draft) : Flag → Except UsageError Progress
  | .file =>
    if d.fromFile then .error (.repeatedOption .file)
    else .ok (.reading { d with fromFile := true })
  | .list =>
    if d.list then .error (.repeatedOption .list) else .ok (.reading { d with list := true })
  | .values => .ok (.awaitingValue d)
  | .help => .ok (.settled .help)
  | .version => .ok (.settled .version)

/-- Takes in an option with a value attached by `=`. -/
def setFlagTo (d : Draft) (value : String) : Flag → Except UsageError Progress
  | .values => (d.setValues value).map .reading
  | flag => .error (.unexpectedValue flag)

/-- Takes in a long option, written without its dashes. -/
def readLong (d : Draft) (word : List Char) : Except UsageError Progress :=
  let name := String.ofList (word.takeWhile (· ≠ '='))
  match Flag.ofWord? name with
  | none => .error (.unknownOption ("--" ++ name))
  | some flag =>
    match word.dropWhile (· ≠ '=') with
    | [] => d.setFlag flag
    | _ :: value => d.setFlagTo (String.ofList value) flag

/-- Takes in joined short options, written without their dash. What follows the option for values
is its value, behind `=` or not. -/
def readShort (d : Draft) : List Char → Except UsageError Progress
  | [] => .ok (.reading d)
  | letter :: letters =>
    match Flag.ofLetter? letter with
    | none => .error (.unknownOption (String.ofList ['-', letter]))
    | some .values =>
      match letters with
      | [] => .ok (.awaitingValue d)
      | '=' :: value => (d.setValues (String.ofList value)).map .reading
      | value => (d.setValues (String.ofList value)).map .reading
    | some flag =>
      match d.setFlag flag with
      | .ok (.reading d) => readShort d letters
      | ended => ended

def close (d : Draft) : Except UsageError Request :=
  match d.expression with
  | none => .error .missingExpression
  | some expression =>
    .ok (.evaluate { fromFile := d.fromFile, list := d.list, values := d.values, expression })

end Draft

/-- Whether an argument is meant as an option: it starts with a dash and is more than that. -/
def looksLikeOption (argument : String) : Bool :=
  argument.toList.head? = some '-' && argument ≠ "-"

def readOption (d : Draft) (argument : String) : Except UsageError Progress :=
  match argument.toList with
  | '-' :: '-' :: word => d.readLong word
  | _ :: letters => d.readShort letters
  | [] => .ok (.reading d)

/-- Reads the arguments after `--`, none of which is an option. -/
def readOperands (d : Draft) : List String → Except UsageError Request
  | [] => d.close
  | argument :: rest =>
    match d.setExpression argument with
    | .error e => .error e
    | .ok d => readOperands d rest

def readFrom (d : Draft) : List String → Except UsageError Request
  | [] => d.close
  | argument :: rest =>
    if argument = "--" then readOperands d rest
    else if looksLikeOption argument then
      match readOption d argument with
      | .error e => .error e
      | .ok (.settled request) => .ok request
      | .ok (.reading d) => readFrom d rest
      | .ok (.awaitingValue d) =>
        match rest with
        | [] => .error (.missingValue .values)
        | value :: rest =>
          if looksLikeOption value then .error (.missingValue .values)
          else
            match d.setValues value with
            | .error e => .error e
            | .ok d => readFrom d rest
    else
      match d.setExpression argument with
      | .error e => .error e
      | .ok d => readFrom d rest

def request (arguments : List String) : Except UsageError Request := readFrom {} arguments

end ArrayCalc.CommandLine
