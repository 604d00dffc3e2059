import DaiScript.Cursor
import DaiScript.Outcome

/-! Reading tokens under a cursor. A reading that fails leaves the cursor where it met the fault. -/
namespace DaiScript

/-- What is wrong with a list of tokens. Kinds and tokens are given as messages describe them. -/
inductive SyntaxCause where
  | unexpected (expected found : String)
  | noExpression (found : String)
  | unclosed (delimiter : Char) (found : String)
  deriving DecidableEq, Repr

structure SyntaxError where
  cause : SyntaxCause
  position : Position
  deriving DecidableEq, Repr

def SyntaxError.message (e : SyntaxError) : String :=
  match e.cause with
  | .unexpected expected found =>
    "Unexpected token: Tya " ++ expected ++ " Chahiyeko, Taile K Lekhis Vai " ++ found
  | .noExpression found =>
    "Expected expression - Expression Chahiyeko, Taile K Lekhis Vai " ++ found
  | .unclosed delimiter found =>
    "Unclosed delimiter - '" ++ delimiter.toString ++ "' Banda Gara Vai, Taile " ++
      found ++ " Lekhis"

abbrev Reading := Process SyntaxError Cursor

namespace Reading

def peek : Reading Token := Process.read Cursor.peek

def advance : Reading Unit := Process.modify Cursor.advance

def accept? (kind : Kind) : Reading (Option Token) := fun c =>
  let (token, c) := c.advanceIf [kind]
  .done token c

def reject (cause : String → SyntaxCause) : Reading α := fun c =>
  .failed ⟨cause c.peek.describe, c.peek.position⟩ c

def expect (kind : Kind) : Reading Token := do
  match ← accept? kind with
  | some token => return token
  | none => reject (.unexpected kind.describe)

def close (symbol : Symbol) (delimiter : Char) : Reading Unit := do
  match ← accept? (.symbol symbol) with
  | some _ => return ()
  | none => reject (.unclosed delimiter)

/-- Passes line breaks. This never ends if the tokens end with one, and not with the end of
input. -/
def skipNewlines : Reading Unit := fun c =>
  if c.pastNewlines.check .newline then .endless else .done () c.pastNewlines

def backTo (c : Cursor) : Reading Unit := Process.modify fun _ => c

end Reading

end DaiScript
