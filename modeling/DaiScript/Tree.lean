import DaiScript.Position
import DaiScript.Number.Basic
import DaiScript.Operator

/-! The trees of programs. Every node that can fail when it runs keeps the place of its operator,
keyword or opening bracket. Parentheses leave no node. -/
namespace DaiScript

inductive Literal where
  | number (n : Number)
  | text (s : String)
  | bool (b : Bool)
  | null
  deriving DecidableEq, Repr

inductive Expr where
  | binary (left : Expr) (op : BinaryOp) (right : Expr) (position : Position)
  | unary (op : UnaryOp) (operand : Expr) (position : Position)
  /-- `before` tells that the operator precedes its target, so that the new value is the result. -/
  | update (op : UpdateOp) (target : Expr) (before : Bool) (position : Position)
  | assign (target : Expr) (op : AssignOp) (value : Expr) (position : Position)
  | call (callee : Expr) (arguments : List Expr) (position : Position)
  | literal (value : Literal) (position : Position)
  | name (name : String) (position : Position)
  | array (items : List Expr) (position : Position)

inductive Stmt where
  | declare (name : String) (value : Option Expr) (position : Position)
  | expr (e : Expr)
  | print (arguments : List Expr) (position : Position)
  | branch (test : Expr) (consequent : Stmt) (alternate : Option Stmt)
  | loop (test : Expr) (body : Stmt)
  | block (body : List Stmt)
  | leave (position : Position)
  | next (position : Position)

abbrev Program := List Stmt

end DaiScript
