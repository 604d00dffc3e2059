/-! What kinds of tokens there are. Keywords and symbols carry their spelling, from which both the
descriptions in messages and the recognition of keywords are derived. -/
namespace DaiScript

inductive Keyword where
  | solti | yadi | bhane | natra | lekh | padh | thik | galat | khali
  | jabaSamma | vaiVayoRokki | aghiBadhVai
  deriving DecidableEq, Repr

namespace Keyword

def words : Keyword → List String
  | solti => ["solti"]
  | yadi => ["yadi"]
  | bhane => ["bhane"]
  | natra => ["natra"]
  | lekh => ["lekh"]
  | padh => ["padh"]
  | thik => ["thik"]
  | galat => ["galat"]
  | khali => ["khali"]
  | jabaSamma => ["jaba", "samma"]
  | vaiVayoRokki => ["vai", "vayo", "rokki"]
  | aghiBadhVai => ["aghi", "badh", "vai"]

def all : List Keyword :=
  [solti, yadi, bhane, natra, lekh, padh, thik, galat, khali, jabaSamma, vaiVayoRokki, aghiBadhVai]

theorem mem_all (k : Keyword) : k ∈ all := by cases k <;> decide

def spelling (k : Keyword) : String :=
  String.intercalate " " k.words

end Keyword

inductive Symbol where
  | plus | minus | star | slash | percent | power
  | assign | plusAssign | minusAssign | starAssign | slashAssign
  | equal | notEqual | less | greater | lessEqual | greaterEqual
  | and | or | not | increment | decrement
  | semicolon | comma | dot | colon
  | openParen | closeParen | openBrace | closeBrace | openBracket | closeBracket
  deriving DecidableEq, Repr

namespace Symbol

def spelling : Symbol → String
  | plus => "+"
  | minus => "-"
  | star => "*"
  | slash => "/"
  | percent => "%"
  | power => "**"
  | assign => "="
  | plusAssign => "+="
  | minusAssign => "-="
  | starAssign => "*="
  | slashAssign => "/="
  | equal => "=="
  | notEqual => "!="
  | less => "<"
  | greater => ">"
  | lessEqual => "<="
  | greaterEqual => ">="
  | and => "&&"
  | or => "||"
  | not => "!"
  | increment => "++"
  | decrement => "--"
  | semicolon => ";"
  | comma => ","
  | dot => "."
  | colon => ":"
  | openParen => "("
  | closeParen => ")"
  | openBrace => "\x7b"
  | closeBrace => "\x7d"
  | openBracket => "["
  | closeBracket => "]"

def pair? : Char → Char → Option Symbol
  | '+', '+' => some increment
  | '-', '-' => some decrement
  | '+', '=' => some plusAssign
  | '-', '=' => some minusAssign
  | '*', '=' => some starAssign
  | '/', '=' => some slashAssign
  | '*', '*' => some power
  | '=', '=' => some equal
  | '!', '=' => some notEqual
  | '<', '=' => some lessEqual
  | '>', '=' => some greaterEqual
  | '&', '&' => some and
  | '|', '|' => some or
  | _, _ => none

def single? : Char → Option Symbol
  | '+' => some plus
  | '-' => some minus
  | '*' => some star
  | '/' => some slash
  | '%' => some percent
  | '=' => some assign
  | '<' => some less
  | '>' => some greater
  | '!' => some not
  | ';' => some semicolon
  | ',' => some comma
  | '.' => some dot
  | ':' => some colon
  | '(' => some openParen
  | ')' => some closeParen
  | '\x7b' => some openBrace
  | '\x7d' => some closeBrace
  | '[' => some openBracket
  | ']' => some closeBracket
  | _ => none

theorem exists_spelling (s : Symbol) :
    (∃ c, s.spelling.toList = [c]) ∨ ∃ c d, s.spelling.toList = [c, d] := by
  cases s <;> first | exact .inl ⟨_, rfl⟩ | exact .inr ⟨_, _, rfl⟩

theorem pair?_eq_some {c d : Char} {s : Symbol} :
    pair? c d = some s ↔ s.spelling.toList = [c, d] := by
  constructor
  · intro h
    unfold pair? at h
    split at h <;> cases h <;> rfl
  · intro h
    cases s <;> cases h <;> rfl

theorem single?_eq_some {c : Char} {s : Symbol} :
    single? c = some s ↔ s.spelling.toList = [c] := by
  constructor
  · intro h
    unfold single? at h
    split at h <;> cases h <;> rfl
  · intro h
    cases s <;> cases h <;> rfl

end Symbol

inductive Kind where
  | number
  | text
  | name
  | keyword (k : Keyword)
  | symbol (s : Symbol)
  | newline
  | finish
  deriving DecidableEq, Repr

def Kind.describe : Kind → String
  | number => "number"
  | text => "string"
  | name => "identifier"
  | keyword k => "'" ++ k.spelling ++ "'"
  | symbol s => "'" ++ s.spelling ++ "'"
  | newline => "newline"
  | finish => "end of input"

end DaiScript
