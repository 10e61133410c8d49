/-! Characters that separate, and the pieces of a text between separators. Expressions are spaced
with blanks (space and tab); records are spaced with any whitespace, the Unicode property of that
name. -/
namespace ArrayCalc.Text

def isBlank (c : Char) : Bool := c = ' ' || c = '\t'

/-- The closed ranges of code points with the Unicode property White_Space, 25 characters. The set
has not changed since version 6.3. -/
def whitespaceRanges : List (Nat × Nat) :=
  [(0x09, 0x0D), (0x20, 0x20), (0x85, 0x85), (0xA0, 0xA0), (0x1680, 0x1680), (0x2000, 0x200A),
   (0x2028, 0x2029), (0x202F, 0x202F), (0x205F, 0x205F), (0x3000, 0x3000)]

def isWhitespace (c : Char) : Bool :=
  whitespaceRanges.any fun range => range.1 ≤ c.toNat && c.toNat ≤ range.2

/-- The words of a text: its longest runs of characters that do not separate. -/
def words (separates : Char → Bool) (text : List Char) : List (List Char) :=
  (text.splitOnP separates).filter (· ≠ [])

def trim (text : List Char) : List Char :=
  ((text.dropWhile isWhitespace).reverse.dropWhile isWhitespace).reverse

/-- The number of bytes that characters take in UTF-8. -/
def byteLength (text : List Char) : Nat := text.foldr (fun c bytes => c.utf8Size + bytes) 0

end ArrayCalc.Text
