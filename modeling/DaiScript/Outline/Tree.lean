import DaiScript.Number.Layout
import DaiScript.Outline.Basic
import DaiScript.Tree

/-! The outlines of program trees. -/
namespace DaiScript

namespace Position

def outline (p : Position) : Outline :=
  .labelled "position" (.record "Position"
    [.labelled "line" (.leaf (toString p.line)), .labelled "column" (.leaf (toString p.column)),
      .labelled "index" (.leaf (toString p.index))])

end Position

namespace BinaryOp

def title : BinaryOp → String
  | add => "Add"
  | sub => "Sub"
  | mul => "Mul"
  | div => "Div"
  | mod => "Mod"
  | pow => "Pow"
  | equal => "Equal"
  | notEqual => "NotEqual"
  | less => "Less"
  | greater => "Greater"
  | lessEqual => "LessEqual"
  | greaterEqual => "GreaterEqual"
  | and => "And"
  | or => "Or"

end BinaryOp

namespace UnaryOp

def title : UnaryOp → String
  | negate => "Negate"
  | not => "Not"

end UnaryOp

namespace UpdateOp

def title : UpdateOp → String
  | increment => "Increment"
  | decrement => "Decrement"

end UpdateOp

namespace AssignOp

def title : AssignOp → String
  | assign => "Assign"
  | add => "AddAssign"
  | sub => "SubAssign"
  | mul => "MulAssign"
  | div => "DivAssign"

end AssignOp

namespace Literal

def outline : Literal → Outline
  | number n => .tagged "Number" (.leaf (Layout.outlined.render n))
  | text s => .tagged "Str" (.quoted s)
  | bool b => .tagged "Bool" (.leaf (if b then "true" else "false"))
  | null => .leaf "Null"

end Literal

namespace Expr

mutual

def outline : Expr → Outline
  | binary left op right p =>
    .record "Binary"
      [.labelled "left" left.outline, .labelled "op" (.leaf op.title),
        .labelled "right" right.outline, p.outline]
  | unary op operand p =>
    .record "Unary"
      [.labelled "op" (.leaf op.title), .labelled "operand" operand.outline, p.outline]
  | update op target before p =>
    .record "Update"
      [.labelled "op" (.leaf op.title), .labelled "target" target.outline,
        .labelled "prefix" (.leaf (if before then "true" else "false")), p.outline]
  | assign target op value p =>
    .record "Assignment"
      [.labelled "target" target.outline, .labelled "op" (.leaf op.title),
        .labelled "value" value.outline, p.outline]
  | call callee arguments p =>
    .record "Call"
      [.labelled "callee" callee.outline, .labelled "arguments" (.list (outlines arguments)),
        p.outline]
  | literal value p => .record "Literal" [.labelled "value" value.outline, p.outline]
  | name s p => .record "Identifier" [.labelled "name" (.quoted s), p.outline]
  | array items p => .record "Array" [.labelled "elements" (.list (outlines items)), p.outline]

def outlines : List Expr → List Outline
  | [] => []
  | e :: es => e.outline :: outlines es

end

end Expr

namespace Stmt

def optional : Option Outline → Outline
  | none => .leaf "None"
  | some inner => .tagged "Some" inner

mutual

def outline : Stmt → Outline
  | declare name value p =>
    .record "VariableDeclaration"
      [.labelled "name" (.quoted name), .labelled "value" (optional (value.map Expr.outline)),
        p.outline]
  | expr e => .record "Expression" [.labelled "expr" e.outline]
  | print arguments p =>
    .record "Print" [.labelled "arguments" (.list (Expr.outlines arguments)), p.outline]
  | branch test consequent alternate =>
    .record "If"
      [.labelled "test" test.outline, .labelled "consequent" consequent.outline,
        .labelled "alternate"
          (match alternate with
          | none => optional none
          | some statement => optional (some statement.outline))]
  | loop test body =>
    .record "While" [.labelled "test" test.outline, .labelled "body" body.outline]
  | block body => .record "Block" [.labelled "body" (.list (outlines body))]
  | leave p => .record "Break" [p.outline]
  | next p => .record "Continue" [p.outline]

def outlines : List Stmt → List Outline
  | [] => []
  | statement :: rest => statement.outline :: outlines rest

end

end Stmt

namespace Program

def outline (program : Program) : Outline :=
  .record "Program" [.labelled "body" (.list (Stmt.outlines program))]

end Program

end DaiScript
