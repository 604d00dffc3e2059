import DaiScript.Fault
import DaiScript.Value.Basic

/-! What operators do to values. The place of an operator is the place of its faults. -/
namespace DaiScript.Value

def mismatch (expected : String) (found : List Value) (p : Position) : Fault :=
  .broken (.mismatch expected (String.intercalate " and " (found.map typeName))) (some p)

def add (left right : Value) (p : Position) : Except Fault Value :=
  match left, right with
  | number a, number b => .ok (number (a.add b))
  | text a, b => .ok (text (a ++ b.shown))
  | a, text b => .ok (text (a.shown ++ b))
  | a, b => .error (mismatch "number or string" [a, b] p)

def onNumbers (operation : Number → Number → Except Fault Value) (left right : Value)
    (p : Position) : Except Fault Value :=
  match left, right with
  | number a, number b => operation a b
  | a, b => .error (mismatch "number" [a, b] p)

/-- Divides unless the divisor is a zero of either sign. -/
def divide (operation : Number → Number → Number) (p : Position) (a b : Number) :
    Except Fault Value :=
  if b.isZero then .error (.broken .divisionByZero (some p)) else .ok (number (operation a b))

def binary (op : BinaryOp) (left right : Value) (p : Position) : Except Fault Value :=
  match op with
  | .add => add left right p
  | .sub => onNumbers (fun a b => .ok (number (a.sub b))) left right p
  | .mul => onNumbers (fun a b => .ok (number (a.mul b))) left right p
  | .div => onNumbers (divide Number.div p) left right p
  | .mod => onNumbers (divide Number.mod p) left right p
  | .pow => onNumbers (fun a b => .ok (number (a.pow b))) left right p
  | .equal => .ok (bool (left.same right))
  | .notEqual => .ok (bool !(left.same right))
  | .less => onNumbers (fun a b => .ok (bool (a.less b))) left right p
  | .greater => onNumbers (fun a b => .ok (bool (b.less a))) left right p
  | .lessEqual => onNumbers (fun a b => .ok (bool (a.atMost b))) left right p
  | .greaterEqual => onNumbers (fun a b => .ok (bool (b.atMost a))) left right p
  | .and => .ok (bool (left.isTruthy && right.isTruthy))
  | .or => .ok (bool (left.isTruthy || right.isTruthy))

/-- The result that the left operand alone decides. -/
def shortCircuit? (op : BinaryOp) (left : Value) : Option Value :=
  match op with
  | .and => if left.isTruthy then none else some (bool false)
  | .or => if left.isTruthy then some (bool true) else none
  | _ => none

def unary (op : UnaryOp) (operand : Value) (p : Position) : Except Fault Value :=
  match op with
  | .not => .ok (bool !operand.isTruthy)
  | .negate =>
    match operand with
    | number n => .ok (number n.negate)
    | v => .error (mismatch "number" [v] p)

/-- The value to store and the result: the stored value if the operator came before its target, and
the old value if it came behind. -/
def update (op : UpdateOp) (current : Value) (before : Bool) (p : Position) :
    Except Fault (Value × Value) :=
  match current with
  | number old =>
    let stored :=
      match op with
      | .increment => old.add (.ofNat 1)
      | .decrement => old.sub (.ofNat 1)
    .ok (number stored, number (if before then stored else old))
  | v => .error (mismatch "number" [v] p)

def assigned (op : AssignOp) (current right : Value) (p : Position) : Except Fault Value :=
  match op.binary? with
  | none => .ok right
  | some op => binary op current right p

end DaiScript.Value
