import DaiScript.Token.Basic

/-! Tables of tokens, one line each: number, kind, source form, payload and place. -/
namespace DaiScript

namespace Keyword

def title : Keyword → String
  | solti => "Solti"
  | yadi => "Yadi"
  | bhane => "Bhane"
  | natra => "Natra"
  | lekh => "Lekh"
  | padh => "Padh"
  | thik => "Thik"
  | galat => "Galat"
  | khali => "Khali"
  | jabaSamma => "JabaSamma"
  | vaiVayoRokki => "VaiVayoRokki"
  | aghiBadhVai => "AghiBadhVai"

end Keyword

namespace Symbol

def title : Symbol → String
  | plus => "Plus"
  | minus => "Minus"
  | star => "Star"
  | slash => "Slash"
  | percent => "Percent"
  | power => "StarStar"
  | assign => "Assign"
  | plusAssign => "PlusAssign"
  | minusAssign => "MinusAssign"
  | starAssign => "StarAssign"
  | slashAssign => "SlashAssign"
  | equal => "EqualEqual"
  | notEqual => "BangEqual"
  | less => "Less"
  | greater => "Greater"
  | lessEqual => "LessEqual"
  | greaterEqual => "GreaterEqual"
  | and => "AndAnd"
  | or => "OrOr"
  | not => "Bang"
  | increment => "PlusPlus"
  | decrement => "MinusMinus"
  | semicolon => "Semicolon"
  | comma => "Comma"
  | dot => "Dot"
  | colon => "Colon"
  | openParen => "LParen"
  | closeParen => "RParen"
  | openBrace => "LBrace"
  | closeBrace => "RBrace"
  | openBracket => "LBracket"
  | closeBracket => "RBracket"

def all : List Symbol :=
  [plus, minus, star, slash, percent, power, assign, plusAssign, minusAssign, starAssign,
    slashAssign, equal, notEqual, less, greater, lessEqual, greaterEqual, and, or, not, increment,
    decrement, semicolon, comma, dot, colon, openParen, closeParen, openBrace, closeBrace,
    openBracket, closeBracket]

theorem mem_all (s : Symbol) : s ∈ all := by cases s <;> decide

end Symbol

namespace Kind

def title : Kind → String
  | number => "Number"
  | text => "Str"
  | name => "Identifier"
  | keyword k => k.title
  | symbol s => s.title
  | newline => "Newline"
  | finish => "Eof"

def all : List Kind :=
  [number, text, name, newline, finish] ++ Keyword.all.map keyword ++ Symbol.all.map symbol

theorem mem_all (k : Kind) : k ∈ all := by
  cases k <;> simp [all, Keyword.mem_all, Symbol.mem_all]

def ofTitle? (title : String) : Option Kind :=
  all.find? (·.title == title)

end Kind

namespace Token

def padLeft (width : Nat) (text : String) : String :=
  String.ofList (List.replicate (width - text.length) ' ') ++ text

def padRight (width : Nat) (text : String) : String :=
  text ++ String.ofList (List.replicate (width - text.length) ' ')

def tableLine (index : Nat) (t : Token) : String :=
  let payload :=
    match t.lexeme.payload with
    | some payload => " (" ++ payload.shown ++ ")"
    | none => ""
  padLeft 3 (toString index) ++ ": " ++ padRight 15 t.kind.title ++ " \"" ++ t.lexeme.spelling ++
    "\"" ++ payload ++ " at " ++ t.position.shown ++ "\n"

def tableFrom : Nat → List Token → String
  | _, [] => ""
  | index, t :: rest => tableLine index t ++ tableFrom (index + 1) rest

def table (tokens : List Token) : String := tableFrom 0 tokens

end Token

end DaiScript
