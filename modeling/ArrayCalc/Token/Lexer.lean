import ArrayCalc.Text.Blank
import ArrayCalc.Token

/-! Cutting a text into lexemes. The text is split into its longest runs of digits, its longest runs
of letters and single characters; each run but the blanks is one token. Digits and letters are those
of ASCII. Lexing never fails and loses nothing: what no token covers is blank. -/
namespace ArrayCalc

def joinsRun (a b : Char) : Bool := (a.isDigit && b.isDigit) || (a.isAlpha && b.isAlpha)

def Token.integerLimit : Nat := Nat.pow 2 63 - 1

/-- The token of a run of digits. Leading zeros do not count. -/
def Token.ofDigits (digits : List Char) : Token :=
  let value := Nat.ofDigitChars 10 digits 0
  if value ≤ Token.integerLimit then .integer value else .oversized (String.ofList digits)

def Token.ofSymbol : Char → Token
  | '+' => .operator .add
  | '-' => .operator .sub
  | '*' => .operator .mul
  | '/' => .operator .div
  | '(' => .opening .paren
  | ')' => .closing .paren
  | '[' => .opening .square
  | ']' => .closing .square
  | c => .foreign c

/-- The token of a run, none for a blank. -/
def Token.ofRun? : List Char → Option Token
  | [] => none
  | c :: run =>
    if Text.isBlank c then none
    else if c.isDigit then some (Token.ofDigits (c :: run))
    else if c.isAlpha then some (.identifier (String.ofList (c :: run)))
    else some (Token.ofSymbol c)

/-- The lexemes of consecutive runs, the first of which starts at byte `start`. -/
def lexemesFrom (start : Nat) : List (List Char) → List Lexeme
  | [] => []
  | run :: runs =>
    let stop := start + Text.byteLength run
    match Token.ofRun? run with
    | some token => ⟨token, start, stop⟩ :: lexemesFrom stop runs
    | none => lexemesFrom stop runs

def lexemes (text : String) : List Lexeme :=
  lexemesFrom 0 (text.toList.splitBy joinsRun)

end ArrayCalc
