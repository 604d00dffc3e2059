import DaiScript.Proofs.Definedness
import DaiScript.Proofs.Untouched

/-! Compound assignments and what they stand for. `x += e` reads `x` behind `e`, and `x = x + e`
reads it in front of `e`; both find the same value if `e` does not write `x`. From there on they do
the same: they apply the operator at the same place, and since `x` is bound, only that can fail. -/
namespace DaiScript

open Evaluating Running

/-! ### Names that are bound -/

theorem evaluate_fetch_of_get? [Sink] {s : Session} {x : String} {value : Value}
    (found : s.scopes.get? x = some value) (p : Position) :
    evaluate (fetch x p) s = .done value s := by
  unfold evaluate fetch Scopes.lookup
  rw [found]

private theorem exists_evaluate_store [Sink] {s : Session} {x : String} {current : Value}
    (found : s.scopes.get? x = some current) (value : Value) (p : Position) :
    ∃ t, evaluate (store x value p) s = .done () t := by
  have bound : (s.scopes.assign? x value).isSome = true := by
    rw [Scopes.isSome_assign?, found]
    rfl
  obtain ⟨scopes, stored⟩ := Option.isSome_iff_exists.mp bound
  refine ⟨{ s with scopes }, ?_⟩
  unfold evaluate store Scopes.assign
  rw [stored]

namespace Expr

theorem get?_of_evaluate [Sink] {x : String} {e : Expr} (unwritten : x ∉ e.written)
    {s t : Session} {value : Value} (run : evaluate e.eval s = .done value t) :
    t.scopes.column x = s.scopes.column x ∧ t.scopes.get? x = s.scopes.get? x := by
  have ends : (evaluate e.eval s).state? = some t := by rw [run]; rfl
  have same : t.scopes.column x = s.scopes.column x := keeps_of_notMem unwritten ends
  exact ⟨same, by rw [Scopes.get?_eq_column, Scopes.get?_eq_column, same]⟩

/-! ### Both forms -/

/-- What remains to be done for either form, once the old value and the operand are known. -/
def combine [Sink] (x : String) (operator : BinaryOp) (p : Position) (current right : Value) :
    Running Value := do
  let result ← evaluate (ofResult (Value.binary operator current right p))
  evaluate (store x result p)
  return result

section

variable {op : AssignOp} {operator : BinaryOp} (expands : op.binary? = some operator)
include expands

private theorem shortCircuit?_of_binary? (left : Value) :
    Value.shortCircuit? operator left = none := by
  cases op <;> cases expands <;> rfl

theorem evaluate_compound_eq [Sink] (x : String) (q : Position) (e : Expr) (p : Position) :
    evaluate (assign (name x q) op e p).eval = (do
      let right ← evaluate e.eval
      let current ← evaluate (fetch x p)
      combine x operator p current right) := by
  have other : op ≠ .assign := by
    rintro rfl
    cases expands
  have applied : ∀ current right,
      Value.assigned op current right p = Value.binary operator current right p := by
    intro current right
    rw [Value.assigned, expands]
  rw [evaluate_assign_name]
  simp only [if_neg other, applied]
  rfl

private theorem evaluate_expansion_eq [Sink] (x : String) (q q' : Position) (e : Expr)
    (p : Position) :
    evaluate (assign (name x q) .assign (binary (name x q') operator e p) p).eval = (do
      let current ← evaluate (fetch x q')
      let right ← evaluate e.eval
      combine x operator p current right) := by
  rw [evaluate_assign_name, evaluate_binary]
  simp only [shortCircuit?_of_binary? expands, if_true, bind_assoc, eval]
  rfl

end

/-- Where a name is bound, the old value can be taken before the operand is evaluated, if that does
not write the name. -/
theorem fetch_comm [Sink] {x : String} {e : Expr} (unwritten : x ∉ e.written) {s : Session}
    (bound : s.scopes.Bound x) (p q : Position) (next : Value → Value → Running α) :
    (do
      let right ← evaluate e.eval
      let current ← evaluate (fetch x p)
      next current right : Running α) s =
    (do
      let current ← evaluate (fetch x q)
      let right ← evaluate e.eval
      next current right : Running α) s := by
  obtain ⟨current, found⟩ := Option.isSome_iff_exists.mp (Scopes.bound_iff.mp bound)
  rw [Process.bind_apply, Process.bind_apply (evaluate (fetch x q)), evaluate_fetch_of_get? found]
  dsimp only
  rw [Process.bind_apply]
  cases run : evaluate e.eval s with
  | failed fault t => rfl
  | endless => rfl
  | done right t =>
    have found' := (get?_of_evaluate unwritten run).2.trans found
    dsimp only
    rw [Process.bind_apply, evaluate_fetch_of_get? found']

private theorem state_of_combine [Sink] {x : String} {operator : BinaryOp} {p : Position}
    {current right : Value} {s t : Session} {fault : Fault} (found : s.scopes.get? x = some current)
    (fails : combine x operator p current right s = .failed fault t) : t = s := by
  unfold combine at fails
  rw [evaluate_ofResult] at fails
  cases applied : Value.binary operator current right p with
  | error reason =>
    rw [applied] at fails
    cases fails
    rfl
  | ok result =>
    obtain ⟨u, stored⟩ := exists_evaluate_store found result p
    simp only [applied, pure_bind] at fails
    rw [Process.bind_apply, stored] at fails
    cases fails

/-- A compound assignment is its expansion: where the name is bound and the operand does not write
it, both end in the same way and leave the same session, the binary node of the expansion standing
at the place of the assignment. If the operand was evaluated and the assignment fails nevertheless,
the session is the one that the operand left, in which every scope binds the name as before. -/
theorem evaluate_compound [Sink] {op : AssignOp} {operator : BinaryOp}
    (expands : op.binary? = some operator) {x : String} {e : Expr} (unwritten : x ∉ e.written)
    {s : Session} (bound : s.scopes.Bound x) (p q q' q'' : Position) :
    evaluate (assign (name x q) op e p).eval s =
        evaluate (assign (name x q') .assign (binary (name x q'') operator e p) p).eval s ∧
      ∀ right t fault u, evaluate e.eval s = .done right t →
        evaluate (assign (name x q) op e p).eval s = .failed fault u →
        u = t ∧ u.scopes.column x = s.scopes.column x := by
  constructor
  · rw [evaluate_compound_eq expands, evaluate_expansion_eq expands]
    exact fetch_comm unwritten bound p q'' (combine x operator p)
  · intro right t fault u run fails
    obtain ⟨current, found⟩ := Option.isSome_iff_exists.mp (Scopes.bound_iff.mp bound)
    obtain ⟨column, same⟩ := get?_of_evaluate unwritten run
    have found' : t.scopes.get? x = some current := same.trans found
    rw [evaluate_compound_eq expands, Process.bind_apply, run] at fails
    dsimp only at fails
    rw [Process.bind_apply, evaluate_fetch_of_get? found'] at fails
    have unchanged : u = t := state_of_combine found' fails
    exact ⟨unchanged, unchanged ▸ column⟩

open scoped Buffer

theorem evaluate_compound_text :
    let y : Expr := .assign (.name "y" .start) .assign (.literal (.bool false) .start) .start
    let s : Session :=
      ⟨((Scopes.initial.define "y" .null).push).define "x" (.text "a"), Buffer.empty⟩
    let place : Position := ⟨1, 3, 2⟩
    let compound (op : AssignOp) : Expr := .assign (.name "x" .start) op y place
    let expansion (op : BinaryOp) : Expr :=
      .assign (.name "x" .start) .assign (.binary (.name "x" ⟨1, 5, 4⟩) op y place) place
    "x" ∉ y.written ∧ s.scopes.Bound "x" ∧
      (∃ t, evaluate (compound .add).eval s = .done (.text "agalat") t ∧
        evaluate (expansion .add).eval s = .done (.text "agalat") t ∧
        t.scopes.column "x" = [some (.text "agalat"), none]) ∧
      ∃ t fault, fault = Value.mismatch "number" [.text "a", .bool false] place ∧
        evaluate (compound .sub).eval s = .failed fault t ∧
        evaluate (expansion .sub).eval s = .failed fault t ∧
        t.scopes.column "x" = [some (.text "a"), none] ∧
        t.scopes.column "y" = [none, some (.bool false)] := by
  intro y s place compound expansion
  have unwritten : "x" ∉ y.written := by decide
  have bound : s.scopes.Bound "x" := Scopes.bound_define _ _ _
  have adds : AssignOp.add.binary? = some .add := rfl
  have subtracts : AssignOp.sub.binary? = some .sub := rfl
  have added := (evaluate_compound adds unwritten bound place .start .start ⟨1, 5, 4⟩).1
  obtain ⟨subtracted, kept⟩ :=
    evaluate_compound subtracts unwritten bound place .start .start ⟨1, 5, 4⟩
  refine ⟨unwritten, bound, ⟨_, rfl, added ▸ rfl, rfl⟩, _, _, rfl, rfl, subtracted ▸ rfl, ?_, rfl⟩
  exact (kept _ _ _ _ rfl rfl).2

end Expr

end DaiScript
