/-! Classes of characters. Only the entry phrase may follow any white space of Unicode; between
tokens four blanks count, and words and numbers are made of ASCII characters. -/
namespace DaiScript.Text

/-- The code points with the property `White_Space`. -/
def isWhite (c : Char) : Bool :=
  let n := c.toNat
  (0x9 ≤ n && n ≤ 0xD) || n == 0x20 || n == 0x85 || n == 0xA0 || n == 0x1680 ||
    (0x2000 ≤ n && n ≤ 0x200A) || n == 0x2028 || n == 0x2029 || n == 0x202F || n == 0x205F ||
    n == 0x3000

/-- A blank that separates tokens and the words of a keyword: space, tab, carriage return or
form feed, never a line feed. -/
def isBlank (c : Char) : Bool :=
  c == ' ' || c == '\t' || c == '\r' || c == '\x0c'

def isWordStart (c : Char) : Bool :=
  c.isAlpha || c == '_'

def isWordPart (c : Char) : Bool :=
  c.isAlphanum || c == '_'

def isQuote (c : Char) : Bool :=
  c == '"' || c == '\''

def trimStart (text : List Char) : List Char :=
  text.dropWhile isWhite

def trim (text : List Char) : List Char :=
  (trimStart (trimStart text).reverse).reverse

end DaiScript.Text
