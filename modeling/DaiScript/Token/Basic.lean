import DaiScript.Position
import DaiScript.Number.Layout
import DaiScript.Token.Kind

/-! Tokens. What a token is and where it stands are kept apart: a lexeme has no place, so two texts
with the same lexemes differ in layout only. -/
namespace DaiScript

inductive Payload where
  | number (n : Number)
  | text (s : String)
  | name (s : String)
  deriving DecidableEq, Repr

def Payload.shown : Payload → String
  | number n => Layout.plain.render n
  | text s => s
  | name s => s

structure Lexeme where
  kind : Kind
  payload : Option Payload
  /-- The source form. A string is written with its escapes again, and a keyword with single
  spaces. -/
  spelling : String
  deriving DecidableEq, Repr

namespace Lexeme

def finish : Lexeme := ⟨.finish, none, ""⟩

def newline : Lexeme := ⟨.newline, none, "\\n"⟩

def keyword (k : Keyword) : Lexeme := ⟨.keyword k, none, k.spelling⟩

def symbol (s : Symbol) : Lexeme := ⟨.symbol s, none, s.spelling⟩

def number? (l : Lexeme) : Option Number :=
  match l.payload with
  | some (.number n) => some n
  | _ => none

def text? (l : Lexeme) : Option String :=
  match l.payload with
  | some (.text s) | some (.name s) => some s
  | _ => none

def nameText (l : Lexeme) : String :=
  l.text?.getD l.spelling

/-- How messages show a lexeme: by its source form, if it has one. -/
def describe (l : Lexeme) : String :=
  if l.kind = .finish ∨ l.kind = .newline ∨ l.spelling.isEmpty then l.kind.describe
  else "'" ++ l.spelling ++ "'"

end Lexeme

structure Token where
  lexeme : Lexeme
  position : Position
  deriving DecidableEq, Repr

namespace Token

def kind (t : Token) : Kind := t.lexeme.kind

def finish (p : Position) : Token := ⟨.finish, p⟩

def describe (t : Token) : String := t.lexeme.describe

end Token

end DaiScript
