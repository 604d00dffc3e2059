import DaiScript.Evaluation

/-! Evaluation without short cuts, which computes both operands of every operator. Where it
succeeds, taking the short cuts cannot matter, unless an operand that would be skipped writes to a
name: the left operand alone has settled the result, and the right one has left no trace. -/
namespace DaiScript

open Evaluating

namespace Expr

mutual

/-- The value of an expression when all operands of its operators are evaluated. -/
def evalEager : Expr → Evaluating Value
  | binary left op right p => do
    let left ← left.evalEager
    let right ← right.evalEager
    ofResult (Value.binary op left right p)
  | unary op operand p => do
    let operand ← operand.evalEager
    ofResult (Value.unary op operand p)
  | update op e before p => do
    let name ← target "update" p e
    let current ← fetch name p
    let (stored, result) ← ofResult (Value.update op current before p)
    store name stored p
    return result
  | assign e op value p => do
    let name ← target "assignment" p e
    let right ← value.evalEager
    let result ←
      if op = .assign then pure right
      else do
        let current ← fetch name p
        ofResult (Value.assigned op current right p)
    store name result p
    return result
  | call _ _ p => throw (.broken .unsupportedCall (some p))
  | literal value _ => return .ofLiteral value
  | name n p => fetch n p
  | array items _ => do
    let values ← evalAllEager items
    return .array values

def evalAllEager : List Expr → Evaluating (List Value)
  | [] => return []
  | e :: es => do
    let value ← e.evalEager
    let values ← evalAllEager es
    return value :: values

end

mutual

def still : Expr → Bool
  | binary left _ right _ => left.still && right.still
  | unary _ operand _ => operand.still
  | update _ _ _ _ | assign _ _ _ _ => false
  | call callee arguments _ => callee.still && stillAll arguments
  | literal _ _ | name _ _ => true
  | array items _ => stillAll items

def stillAll : List Expr → Bool
  | [] => true
  | e :: es => e.still && stillAll es

end

end Expr

def BinaryOp.logical : BinaryOp → Bool
  | and | or => true
  | add | sub | mul | div | mod | pow | equal | notEqual | less | greater | lessEqual
  | greaterEqual => false

namespace Expr

mutual

/-- No right operand of a logical operator in the expression contains an assignment or an update. -/
def guarded : Expr → Bool
  | binary left op right _ => left.guarded && right.guarded && (!op.logical || right.still)
  | unary _ operand _ => operand.guarded
  | update _ e _ _ => e.guarded
  | assign e _ value _ => e.guarded && value.guarded
  | call callee arguments _ => callee.guarded && guardedAll arguments
  | literal _ _ | name _ _ => true
  | array items _ => guardedAll items

def guardedAll : List Expr → Bool
  | [] => true
  | e :: es => e.guarded && guardedAll es

end

end Expr

/-! ### Single operators -/

namespace Value

variable {op : BinaryOp} {left decided : Value}

private theorem logical_of_shortCircuit? (h : shortCircuit? op left = some decided) :
    op.logical = true := by
  cases op <;> first | rfl | cases h

theorem binary_of_shortCircuit? (h : shortCircuit? op left = some decided) (right : Value)
    (p : Position) : binary op left right p = .ok decided := by
  cases op with
  | and | or =>
    cases truth : left.isTruthy <;> simp [shortCircuit?, truth] at h
    subst h
    simp [binary, truth]
  | _ => cases h

theorem bool_of_logical (h : op.logical = true) {right result : Value} {p : Position}
    (run : binary op left right p = .ok result) : ∃ b, result = .bool b := by
  cases op with
  | and | or =>
    cases run
    exact ⟨_, rfl⟩
  | _ => cases h

end Value

/-! ### Runs -/

namespace Evaluating

theorem bind_eq_ok_iff {x : Evaluating α} {next : α → Evaluating β} {s t : Scopes} {b : β} :
    (x >>= next) s = .ok b t ↔ ∃ a u, x s = .ok a u ∧ next a u = .ok b t := by
  simp only [bind, EStateM.bind]
  cases x s <;> simp [and_assoc]

theorem ofResult_eq_ok_iff {result : Except Fault α} {s t : Scopes} {a : α} :
    ofResult result s = .ok a t ↔ result = .ok a ∧ t = s := by
  unfold ofResult
  cases result <;> simp [eq_comm]

def Refines (x y : Evaluating α) : Prop := ∀ ⦃s a t⦄, x s = .ok a t → y s = .ok a t

theorem Refines.refl (x : Evaluating α) : Refines x x := fun _ _ _ run => run

theorem Refines.bind {x y : Evaluating α} {next next' : α → Evaluating β} (h : Refines x y)
    (k : ∀ a, Refines (next a) (next' a)) : Refines (x >>= next) (y >>= next') := by
  intro s b t run
  obtain ⟨a, u, first, second⟩ := bind_eq_ok_iff.mp run
  exact bind_eq_ok_iff.mpr ⟨a, u, h first, k a second⟩

def Traceless (x : Evaluating α) : Prop := ∀ ⦃s a t⦄, x s = .ok a t → t = s

theorem Traceless.pure (a : α) : Traceless (Pure.pure a : Evaluating α) := by
  rintro s _ _ ⟨⟩
  rfl

theorem Traceless.bind {x : Evaluating α} {next : α → Evaluating β} (h : Traceless x)
    (k : ∀ a, Traceless (next a)) : Traceless (x >>= next) := by
  intro s b t run
  obtain ⟨a, u, first, second⟩ := bind_eq_ok_iff.mp run
  exact (k a second).trans (h first)

theorem Traceless.ofResult (result : Except Fault α) : Traceless (ofResult result) :=
  fun _ _ _ run => (ofResult_eq_ok_iff.mp run).2

theorem Traceless.fetch (name : String) (p : Position) : Traceless (fetch name p) := by
  intro s a t run
  unfold Evaluating.fetch at run
  split at run <;> cases run
  rfl

end Evaluating

namespace Expr

mutual

theorem traceless_evalEager (e : Expr) (h : e.still = true) : Traceless e.evalEager := by
  cases e with
  | binary left op right p =>
    rw [still, Bool.and_eq_true] at h
    rw [evalEager]
    apply (traceless_evalEager left h.1).bind
    intro value
    apply (traceless_evalEager right h.2).bind
    intro value'
    exact .ofResult _
  | unary op operand p =>
    rw [evalEager]
    apply (traceless_evalEager operand h).bind
    intro value
    exact .ofResult _
  | update | assign => cases h
  | call callee arguments p =>
    intro s a t run
    cases run
  | literal value p => exact .pure _
  | name n p => exact .fetch n p
  | array items p =>
    rw [evalEager]
    exact (traceless_evalAllEager items h).bind fun values => .pure _

theorem traceless_evalAllEager (es : List Expr) (h : stillAll es = true) :
    Traceless (evalAllEager es) := by
  cases es with
  | nil => exact .pure _
  | cons e es =>
    rw [stillAll, Bool.and_eq_true] at h
    rw [evalAllEager]
    apply (traceless_evalEager e h.1).bind
    intro value
    exact (traceless_evalAllEager es h.2).bind fun values => .pure _

end

/-- The short cut gives what evaluating the right operand would have given, if that leaves no
trace. -/
theorem refines_binary {left right : Expr} {op : BinaryOp} (p : Position)
    (h : Refines left.evalEager left.eval) (k : Refines right.evalEager right.eval)
    (skipped : op.logical = true → Traceless right.evalEager) :
    Refines (binary left op right p).evalEager (binary left op right p).eval := by
  intro s result t run
  rw [evalEager] at run
  obtain ⟨value, u, first, rest⟩ := bind_eq_ok_iff.mp run
  obtain ⟨value', u', second, last⟩ := bind_eq_ok_iff.mp rest
  obtain ⟨applied, rfl⟩ := ofResult_eq_ok_iff.mp last
  rw [eval]
  refine bind_eq_ok_iff.mpr ⟨value, u, h first, ?_⟩
  cases short : Value.shortCircuit? op value with
  | some decided =>
    -- The right operand did not count, and since it left no trace it can be left out.
    have same : t = u := skipped (Value.logical_of_shortCircuit? short) second
    rw [Value.binary_of_shortCircuit? short value' p] at applied
    cases applied
    rw [same]
    rfl
  | none =>
    refine bind_eq_ok_iff.mpr ⟨value', t, k second, ?_⟩
    exact ofResult_eq_ok_iff.mpr ⟨applied, rfl⟩

mutual

theorem refines_evalEager (e : Expr) (h : e.guarded = true) : Refines e.evalEager e.eval := by
  cases e with
  | binary left op right p =>
    simp only [guarded, Bool.and_eq_true, Bool.or_eq_true, Bool.not_eq_true'] at h
    obtain ⟨⟨guardedLeft, guardedRight⟩, skipped⟩ := h
    apply refines_binary p (refines_evalEager left guardedLeft)
      (refines_evalEager right guardedRight)
    intro logical
    rw [logical, Bool.true_eq_false, false_or] at skipped
    exact traceless_evalEager right skipped
  | unary op operand p =>
    rw [evalEager, eval]
    exact (refines_evalEager operand h).bind fun _ => .refl _
  | update op target before p =>
    rw [evalEager, eval]
    exact .refl _
  | assign target op value p =>
    rw [guarded, Bool.and_eq_true] at h
    rw [evalEager, eval]
    apply (Refines.refl _).bind
    intro name
    exact (refines_evalEager value h.2).bind fun _ => .refl _
  | call callee arguments p =>
    intro s a t run
    cases run
  | literal value p => exact .refl _
  | name n p => exact .refl _
  | array items p =>
    rw [evalEager, eval]
    exact (refines_evalAllEager items h).bind fun _ => .refl _

theorem refines_evalAllEager (es : List Expr) (h : guardedAll es = true) :
    Refines (evalAllEager es) (evalAll es) := by
  cases es with
  | nil => exact .refl _
  | cons e es =>
    rw [guardedAll, Bool.and_eq_true] at h
    rw [evalAllEager, evalAll]
    apply (refines_evalEager e h.1).bind
    intro value
    exact (refines_evalAllEager es h.2).bind fun _ => .refl _

end

private theorem bool_of_eval {left right : Expr} {op : BinaryOp} {p : Position}
    (logical : op.logical = true) {s t : Scopes} {result : Value}
    (run : (binary left op right p).eval s = .ok result t) :
    ∃ b, result = .bool b := by
  rw [eval] at run
  obtain ⟨value, u, -, rest⟩ := bind_eq_ok_iff.mp run
  cases short : Value.shortCircuit? op value with
  | some decided =>
    rw [short] at rest
    cases rest
    exact Value.bool_of_logical logical (Value.binary_of_shortCircuit? short .null p)
  | none =>
    rw [short] at rest
    obtain ⟨value', u', -, last⟩ := bind_eq_ok_iff.mp rest
    exact Value.bool_of_logical logical (ofResult_eq_ok_iff.mp last).1

/-- Where no operand that may be skipped writes to a name, evaluation gives what evaluating all
operands would give, whenever that succeeds. And a logical operator that succeeds gives a truth
value, whatever its operands are. -/
theorem eval_of_evalEager :
    (∀ (e : Expr) (s t : Scopes) (value : Value), e.guarded = true →
      e.evalEager s = .ok value t → e.eval s = .ok value t) ∧
    ∀ (left right : Expr) (op : BinaryOp) (p : Position) (s t : Scopes) (value : Value),
      op.logical = true → (binary left op right p).eval s = .ok value t → ∃ b, value = .bool b :=
  ⟨fun e _ _ _ guarded run => refines_evalEager e guarded run,
    fun _ _ _ _ _ _ _ logical run => bool_of_eval logical run⟩

theorem eval_of_evalEager_nested :
    let x : Expr := .name "x" .start
    let y : Expr := .name "y" .start
    let first : Expr := .assign y .assign (.literal (.text "a") .start) .start
    let second : Expr := .binary x .and (.array [] .start) .start
    let either : Expr := .binary first .or second .start
    let e : Expr := .assign x .assign either .start
    let s := (Scopes.initial.define "x" .null).define "y" .null
    e.guarded = true ∧
      (∃ t, e.evalEager s = .ok (.bool true) t ∧ e.eval s = .ok (.bool true) t ∧
        t.get? "x" = some (.bool true) ∧ t.get? "y" = some (.text "a")) ∧
      ∃ value t, either.eval s = .ok value t ∧ ∃ b, value = .bool b := by
  intro x y first second either e s
  obtain ⟨agrees, truth⟩ := eval_of_evalEager
  refine ⟨rfl, ⟨_, rfl, agrees e s _ _ rfl rfl, rfl, rfl⟩, _, _, rfl, ?_⟩
  exact truth first second .or .start s _ _ rfl rfl

end Expr

end DaiScript
