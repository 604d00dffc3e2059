import DaiScript.Session

/-! Equations for runs. Evaluation inside a session is a process like all others, so what holds of
processes holds of expressions, and nobody has to look at scopes and output at once. -/
namespace DaiScript

open Evaluating Running

namespace Expr

theorem name_or_other (e : Expr) : (∃ n q, e = name n q) ∨ ∀ n q, e ≠ name n q := by
  cases e <;> simp

theorem target_eq_throw {e : Expr} (other : ∀ n q, e ≠ name n q) (operation : String)
    (p : Position) :
    target operation p e = throw (.broken (.invalidTarget operation) (some p)) := by
  cases e with
  | name n q => exact absurd rfl (other n q)
  | _ => rfl

end Expr

variable [Sink]

namespace Running

theorem evaluate_pure (a : α) : evaluate (Pure.pure a) = Pure.pure a := rfl

theorem evaluate_bind (x : Evaluating α) (next : α → Evaluating β) :
    evaluate (x >>= next) = evaluate x >>= fun a => evaluate (next a) := by
  funext s
  rw [Process.bind_apply]
  unfold evaluate
  simp only [bind, EStateM.bind]
  cases x s.scopes <;> rfl

theorem evaluate_throw (fault : Fault) :
    evaluate (throw fault : Evaluating α) = Process.fail fault := rfl

theorem evaluate_ofResult (result : Except Fault α) :
    evaluate (ofResult result) =
      match result with
      | .ok a => Pure.pure a
      | .error fault => Process.fail fault := by
  funext s
  cases result <;> rfl

end Running

namespace Expr

theorem evaluate_binary (left right : Expr) (op : BinaryOp) (p : Position) :
    evaluate (binary left op right p).eval = (do
      let left ← evaluate left.eval
      match Value.shortCircuit? op left with
      | some decided => return decided
      | none =>
        let right ← evaluate right.eval
        evaluate (ofResult (Value.binary op left right p))) := by
  rw [eval, evaluate_bind]
  congr 1
  funext value
  cases Value.shortCircuit? op value with
  | some decided => rfl
  | none => exact evaluate_bind _ _

theorem evaluate_unary (op : UnaryOp) (operand : Expr) (p : Position) :
    evaluate (unary op operand p).eval = (do
      let operand ← evaluate operand.eval
      evaluate (ofResult (Value.unary op operand p))) := by
  rw [eval, evaluate_bind]

theorem evaluate_update_name (op : UpdateOp) (n : String) (q : Position) (before : Bool)
    (p : Position) :
    evaluate (update op (name n q) before p).eval = (do
      let current ← evaluate (fetch n p)
      let result ← evaluate (ofResult (Value.update op current before p))
      evaluate (store n result.1 p)
      return result.2) := by
  rw [eval]
  simp only [target, pure_bind, evaluate_bind, evaluate_pure]

theorem evaluate_assign_name (n : String) (q : Position) (op : AssignOp) (value : Expr)
    (p : Position) :
    evaluate (assign (name n q) op value p).eval = (do
      let right ← evaluate value.eval
      if op = .assign then
        evaluate (store n right p)
        return right
      else
        let current ← evaluate (fetch n p)
        let result ← evaluate (ofResult (Value.assigned op current right p))
        evaluate (store n result p)
        return result) := by
  rw [eval]
  simp only [target, pure_bind, evaluate_bind]
  congr 1
  funext right
  split <;> simp only [evaluate_bind, evaluate_pure]

theorem evaluate_update_other {e : Expr} (other : ∀ n q, e ≠ name n q) (op : UpdateOp)
    (before : Bool) (p : Position) :
    evaluate (update op e before p).eval =
      Process.fail (.broken (.invalidTarget "update") (some p)) := by
  rw [eval, target_eq_throw other, evaluate_bind]
  rfl

theorem evaluate_assign_other {e : Expr} (other : ∀ n q, e ≠ name n q) (op : AssignOp)
    (value : Expr) (p : Position) :
    evaluate (assign e op value p).eval =
      Process.fail (.broken (.invalidTarget "assignment") (some p)) := by
  rw [eval, target_eq_throw other, evaluate_bind]
  rfl

theorem evaluate_array (items : List Expr) (p : Position) :
    evaluate (array items p).eval = (do
      let values ← evaluate (evalAll items)
      return .array values) := by
  rw [eval, evaluate_bind]
  rfl

theorem evaluate_cons (e : Expr) (es : List Expr) :
    evaluate (evalAll (e :: es)) = (do
      let value ← evaluate e.eval
      let values ← evaluate (evalAll es)
      return value :: values) := by
  rw [evalAll]
  simp only [evaluate_bind, evaluate_pure]

end Expr

namespace Stmt

theorem exec_declare_none (rounds : Nat) (name : String) (p : Position) :
    (declare name none p).exec rounds = (do
      define name .null
      return .normal .null) := by
  rw [exec]
  rfl

theorem exec_declare_some (rounds : Nat) (name : String) (e : Expr) (p : Position) :
    (declare name (some e) p).exec rounds = (do
      let value ← evaluate e.eval
      define name value
      return .normal value) := by
  rw [exec]

theorem execAll_declare (rounds : Nat) (name : String) (e : Expr) (p : Position) (body : List Stmt)
    (value : Value) :
    execAll rounds value (declare name (some e) p :: body) = (do
      let value ← evaluate e.eval
      define name value
      execAll rounds value body) := by
  rw [execAll, exec_declare_some]
  simp only [bind_assoc, pure_bind]

theorem exec_branch (rounds : Nat) (test : Expr) (consequent : Stmt) (alternate : Option Stmt) :
    (branch test consequent alternate).exec rounds = (do
      let holds ← evaluate test.eval
      if holds.isTruthy then consequent.exec rounds
      else
        match alternate with
        | some statement => statement.exec rounds
        | none => return .normal .null) := by
  cases alternate <;> rw [exec]

end Stmt

end DaiScript
