import DaiScript.Token.Basic

/-! A place in a list of tokens, with one token of lookahead. The cursor never passes an
end-of-input token. A list without one behaves as if its last token went on for ever, and an empty
list as if it held the end of an empty text. -/
namespace DaiScript

structure Cursor where
  /-- The tokens passed, the last one first. -/
  behind : List Token
  ahead : List Token
  /-- How many steps were taken past the last token. -/
  beyond : Nat
  deriving DecidableEq, Repr

namespace Cursor

def ofTokens (tokens : List Token) : Cursor := ⟨[], tokens, 0⟩

def tokens (c : Cursor) : List Token := c.behind.reverse ++ c.ahead

def offset (c : Cursor) : Nat := c.behind.length + c.beyond

def moveTo (c : Cursor) (offset : Nat) : Cursor :=
  ⟨(c.tokens.take offset).reverse, c.tokens.drop offset, offset - c.tokens.length⟩

def peek (c : Cursor) : Token :=
  (c.ahead.head?.or c.behind.head?).getD (.finish .start)

/-- The token passed last; the first of all if none was, or if the cursor stepped past the last. -/
def previous (c : Cursor) : Token :=
  match c.beyond, c.behind with
  | 0, t :: _ => t
  | _, behind => (behind.getLast?.or c.ahead.head?).getD (.finish .start)

def atEnd (c : Cursor) : Bool :=
  c.peek.kind == .finish

def check (c : Cursor) (kind : Kind) : Bool :=
  !c.atEnd && c.peek.kind == kind

def advance (c : Cursor) : Cursor :=
  if c.atEnd then c
  else
    match c.ahead with
    | t :: rest => { c with behind := t :: c.behind, ahead := rest }
    | [] => { c with beyond := c.beyond + 1 }

def advanceIf (c : Cursor) (kinds : List Kind) : Option Token × Cursor :=
  if kinds.any c.check then (some c.advance.previous, c.advance) else (none, c)

def pastNewlines (c : Cursor) : Cursor :=
  let isNewline (t : Token) : Bool := t.kind == .newline
  { c with
    behind := (c.ahead.takeWhile isNewline).reverse ++ c.behind
    ahead := c.ahead.dropWhile isNewline }

/-- More steps than any walk takes from here that ends. -/
def reach (c : Cursor) : Nat := c.ahead.length + 4

end Cursor

end DaiScript
