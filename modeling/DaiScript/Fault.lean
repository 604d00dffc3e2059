import DaiScript.Position

/-! What goes wrong when a program runs. A failed write belongs to no place of the program; every
other fault has one as soon as it is known. -/
namespace DaiScript

inductive Reason where
  | undefined (name : String)
  | mismatch (expected found : String)
  | divisionByZero
  | invalidTarget (operation : String)
  | unsupportedCall
  | outsideLoop (keyword : String)
  deriving DecidableEq, Repr

inductive Fault where
  | broken (reason : Reason) (position : Option Position)
  | output (message : String)
  deriving DecidableEq, Repr

inductive Category where
  | lexical
  | parse
  | undefinedVariable
  | type
  | divisionByZero
  | internal
  | io
  deriving DecidableEq, Repr

def Category.title : Category → String
  | lexical => "LexicalError"
  | parse => "ParseError"
  | undefinedVariable => "UndefinedVariableError"
  | type => "TypeError"
  | divisionByZero => "DivisionByZeroError"
  | internal => "InternalError"
  | io => "IoError"

namespace Reason

def message : Reason → String
  | undefined name => "Undefined variable - Variable Define Garna Birsis Vai '" ++ name ++ "'"
  | mismatch expected found =>
    "Type error - Yo Chahiyeko " ++ expected ++ ", Yo Diyis Vai Taile " ++ found
  | divisionByZero => "Division by zero - Shunya Le Bhag Garna Mildaina Vai"
  | invalidTarget operation => "Left-hand Side Check Gara Solti " ++ operation ++ " Ma"
  | unsupportedCall => "Function calls are not supported yet - Kaam Bolauna Mildaina Vai"
  | outsideLoop keyword => "'" ++ keyword ++ "' used outside of a loop - Loop Bahira Mildaina Vai"

def category : Reason → Category
  | undefined _ => .undefinedVariable
  | mismatch _ _ => .type
  | divisionByZero => .divisionByZero
  | invalidTarget _ | unsupportedCall | outsideLoop _ => .internal

end Reason

namespace Fault

def message : Fault → String
  | broken reason _ => reason.message
  | output text => "Failed to write output: " ++ text

def category : Fault → Category
  | broken reason _ => reason.category
  | output _ => .io

def position? : Fault → Option Position
  | broken _ position => position
  | output _ => none

def locate (p : Position) : Fault → Fault
  | broken reason position => broken reason (position.or (some p))
  | output text => output text

end Fault

end DaiScript
