import DaiScript.Scope
import DaiScript.Value.Operation

/-! The values of expressions. Evaluation follows the tree, so it always ends; it changes no more
than the values of bound names, and what it changed before a fault stays changed. -/
namespace DaiScript

abbrev Evaluating := EStateM Fault Scopes

namespace Evaluating

def ofResult (result : Except Fault α) : Evaluating α := fun s =>
  match result with
  | .ok a => .ok a s
  | .error fault => .error fault s

def fetch (name : String) (p : Position) : Evaluating Value := fun s =>
  match s.lookup name with
  | .ok value => .ok value s
  | .error fault => .error (fault.locate p) s

def store (name : String) (value : Value) (p : Position) : Evaluating Unit := fun s =>
  match s.assign name value with
  | .ok s => .ok () s
  | .error fault => .error (fault.locate p) s

def target (operation : String) (p : Position) : Expr → Evaluating String
  | .name name _ => pure name
  | _ => throw (.broken (.invalidTarget operation) (some p))

end Evaluating

open Evaluating

namespace Expr

mutual

def eval : Expr → Evaluating Value
  | binary left op right p => do
    let left ← left.eval
    match Value.shortCircuit? op left with
    | some decided => return decided
    | none =>
      let right ← right.eval
      ofResult (Value.binary op left right p)
  | unary op operand p => do
    let operand ← operand.eval
    ofResult (Value.unary op operand p)
  | update op e before p => do
    let name ← target "update" p e
    let current ← fetch name p
    let (stored, result) ← ofResult (Value.update op current before p)
    store name stored p
    return result
  | assign e op value p => do
    let name ← target "assignment" p e
    let right ← value.eval
    let result ←
      if op = .assign then pure right
      else do
        let current ← fetch name p
        ofResult (Value.assigned op current right p)
    store name result p
    return result
  | call _ _ p => throw (.broken .unsupportedCall (some p))
  | literal value _ => return .ofLiteral value
  | name n p => fetch n p
  | array items _ => do
    let values ← evalAll items
    return .array values

def evalAll : List Expr → Evaluating (List Value)
  | [] => return []
  | e :: es => do
    let value ← e.eval
    let values ← evalAll es
    return value :: values

end

end Expr

end DaiScript
