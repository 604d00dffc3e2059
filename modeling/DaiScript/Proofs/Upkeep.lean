import DaiScript.Proofs.Execution

/-! What every run keeps up, however it ends: a relation between the first state and the last that
holds of the single steps holds of whole runs. The steps that change a session are few: a value is
stored or defined under a name, a text is written, a scope is opened and closed. -/
namespace DaiScript

def Outcome.state? : Outcome ε σ α → Option σ
  | done _ s => some s
  | failed _ s => some s
  | endless => none

private theorem Outcome.state?_mapState (o : Outcome ε σ α) (f : σ → τ) :
    (o.mapState f).state? = o.state?.map f := by
  cases o <;> rfl

/-- In whatever state the process ends, it is related to the state from which it started. -/
def Process.Keeps (R : σ → σ → Prop) (p : Process ε σ α) : Prop :=
  ∀ ⦃s t⦄, (p s).state? = some t → R s t

structure Lasting (R : σ → σ → Prop) : Prop where
  refl : ∀ s, R s s
  trans : ∀ {s t u}, R s t → R t u → R s u

namespace Process.Keeps

variable {R : σ → σ → Prop}

theorem pure (lasting : Lasting R) (a : α) : Keeps R (Pure.pure a : Process ε σ α) := by
  rintro s _ ⟨⟩
  exact lasting.refl s

theorem fail (lasting : Lasting R) (e : ε) : Keeps R (Process.fail e : Process ε σ α) := by
  rintro s _ ⟨⟩
  exact lasting.refl s

theorem endless : Keeps R (Process.endless : Process ε σ α) :=
  nofun

theorem bind (lasting : Lasting R) {p : Process ε σ α} {next : α → Process ε σ β} (h : Keeps R p)
    (k : ∀ a, Keeps R (next a)) : Keeps R (p >>= next) := by
  intro s u ends
  rw [Process.bind_apply] at ends
  cases run : p s with
  | done a t =>
    rw [run] at ends
    have first : R s t := h (by rw [run]; rfl)
    exact lasting.trans first (k a ends)
  | failed e t =>
    rw [run] at ends
    cases ends
    exact h (by rw [run]; rfl)
  | endless =>
    rw [run] at ends
    cases ends

end Process.Keeps

/-- The process does the same on a changed state, which it leaves changed in the same way. -/
def Process.Commutes (change : σ → σ) (p : Process ε σ α) : Prop :=
  ∀ s, p (change s) = (p s).mapState change

namespace Process.Commutes

variable {change : σ → σ}

theorem pure (a : α) : Commutes change (Pure.pure a : Process ε σ α) := fun _ => rfl

theorem fail (e : ε) : Commutes change (Process.fail e : Process ε σ α) := fun _ => rfl

theorem endless : Commutes change (Process.endless : Process ε σ α) := fun _ => rfl

theorem bind {p : Process ε σ α} {next : α → Process ε σ β} (h : Commutes change p)
    (k : ∀ a, Commutes change (next a)) : Commutes change (p >>= next) := by
  intro s
  rw [Process.bind_apply, Process.bind_apply, h s]
  cases p s with
  | done a t => exact k a t
  | failed e t => rfl
  | endless => rfl

end Process.Commutes

/-! ### The names that a tree writes -/

def Expr.targets : Expr → List String
  | .name n _ => [n]
  | _ => []

mutual

def Expr.written : Expr → List String
  | .binary left _ right _ => left.written ++ right.written
  | .unary _ operand _ => operand.written
  | .update _ target _ _ => target.targets ++ target.written
  | .assign target _ value _ => target.targets ++ target.written ++ value.written
  | .call callee arguments _ => callee.written ++ Expr.writtenAll arguments
  | .literal _ _ | .name _ _ => []
  | .array items _ => Expr.writtenAll items

def Expr.writtenAll : List Expr → List String
  | [] => []
  | e :: es => e.written ++ Expr.writtenAll es

end

mutual

/-- The names that a statement declares, and those that are targets in it. -/
def Stmt.written : Stmt → List String
  | .declare name value _ => name :: (value.map Expr.written).getD []
  | .expr e => e.written
  | .print arguments _ => Expr.writtenAll arguments
  | .branch test consequent alternate =>
    test.written ++ consequent.written ++ Stmt.writtenElse alternate
  | .loop test body => test.written ++ body.written
  | .block body => Stmt.writtenAll body
  | .leave _ | .next _ => []

def Stmt.writtenElse : Option Stmt → List String
  | none => []
  | some s => s.written

def Stmt.writtenAll : List Stmt → List String
  | [] => []
  | s :: body => s.written ++ Stmt.writtenAll body

end

/-! ### Runs -/

open Evaluating Running

variable [Sink]

theorem cases_of_store {name : String} {value : Value} {p : Position} {s t : Session}
    (ends : (evaluate (store name value p) s).state? = some t) :
    t = s ∨ ∃ scopes, s.scopes.assign? name value = some scopes ∧ t = { s with scopes } := by
  unfold evaluate store Scopes.assign at ends
  cases stored : s.scopes.assign? name value with
  | none =>
    rw [stored] at ends
    cases ends
    exact .inl rfl
  | some scopes =>
    rw [stored] at ends
    cases ends
    exact .inr ⟨scopes, rfl, rfl⟩

theorem scopes_of_write {text : String} {s t : Session} (ends : (write text s).state? = some t) :
    t.scopes = s.scopes := by
  unfold write at ends
  split at ends <;> (cases ends; rfl)

theorem exists_of_inScope {run : Running α} {s t : Session}
    (ends : (inScope run s).state? = some t) :
    ∃ u, (run { s with scopes := s.scopes.push }).state? = some u ∧
      t = { u with scopes := u.scopes.pop } := by
  unfold inScope at ends
  rw [Outcome.state?_mapState, Option.map_eq_some_iff] at ends
  obtain ⟨u, inside, rfl⟩ := ends
  exact ⟨u, inside, rfl⟩

/-- The judgement holds of all that the evaluation of expressions is made of, if only the names are
written. -/
structure Compositional (J : {α : Type} → Running α → Prop) (own : String → Prop) : Prop where
  pure : ∀ {α : Type} (a : α), J (Pure.pure a : Running α)
  fail : ∀ {α : Type} (fault : Fault), J (Process.fail fault : Running α)
  bind : ∀ {α β : Type} {run : Running α} {next : α → Running β},
    J run → (∀ a, J (next a)) → J (run >>= next)
  fetch : ∀ n p, J (evaluate (fetch n p))
  store : ∀ {n}, own n → ∀ value p, J (evaluate (store n value p))

namespace Compositional

variable {J : {α : Type} → Running α → Prop} {own : String → Prop} (C : Compositional J own)
include C

theorem ofResult {α : Type} (result : Except Fault α) : J (evaluate (ofResult result)) := by
  rw [evaluate_ofResult]
  cases result with
  | ok a => exact C.pure a
  | error fault => exact C.fail fault

theorem update {target : Expr} (written : ∀ n ∈ target.targets, own n) (op : UpdateOp)
    (before : Bool) (p : Position) : J (evaluate (Expr.update op target before p).eval) := by
  obtain ⟨n, q, rfl⟩ | other := target.name_or_other
  · have stored := C.store (written n (by simp [Expr.targets]))
    rw [Expr.evaluate_update_name]
    apply C.bind (C.fetch n p)
    intro current
    apply C.bind (C.ofResult _)
    intro result
    apply C.bind (stored _ p)
    intro _
    exact C.pure _
  · rw [Expr.evaluate_update_other other]
    exact C.fail _

theorem assign {target value : Expr} (written : ∀ n ∈ target.targets, own n)
    (h : J (evaluate value.eval)) (op : AssignOp) (p : Position) :
    J (evaluate (Expr.assign target op value p).eval) := by
  obtain ⟨n, q, rfl⟩ | other := target.name_or_other
  · have stored : ∀ result : Value,
        J (evaluate (Evaluating.store n result p) >>= fun _ => Pure.pure result) := by
      intro result
      apply C.bind (C.store (written n (by simp [Expr.targets])) result p)
      intro _
      exact C.pure result
    rw [Expr.evaluate_assign_name]
    apply C.bind h
    intro right
    split
    · exact stored right
    · apply C.bind (C.fetch n p)
      intro current
      exact C.bind (C.ofResult _) stored
  · rw [Expr.evaluate_assign_other other]
    exact C.fail _

mutual

theorem eval (e : Expr) (written : ∀ n ∈ e.written, own n) : J (evaluate e.eval) := by
  cases e with
  | binary left op right p =>
    simp only [Expr.written, List.forall_mem_append] at written
    rw [Expr.evaluate_binary]
    apply C.bind (eval left written.1)
    intro value
    split
    · exact C.pure _
    · apply C.bind (eval right written.2)
      intro value'
      exact C.ofResult _
  | unary op operand p =>
    rw [Expr.evaluate_unary]
    apply C.bind (eval operand written)
    intro value
    exact C.ofResult _
  | update op target before p =>
    simp only [Expr.written, List.forall_mem_append] at written
    exact C.update written.1 op before p
  | assign target op value p =>
    simp only [Expr.written, List.forall_mem_append] at written
    exact C.assign written.1.1 (eval value written.2) op p
  | call callee arguments p =>
    rw [Expr.eval, evaluate_throw]
    exact C.fail _
  | literal value p =>
    rw [Expr.eval]
    exact C.pure _
  | name n p =>
    rw [Expr.eval]
    exact C.fetch n p
  | array items p =>
    rw [Expr.evaluate_array]
    apply C.bind (evalAll items written)
    intro values
    exact C.pure _

theorem evalAll (es : List Expr) (written : ∀ n ∈ Expr.writtenAll es, own n) :
    J (evaluate (Expr.evalAll es)) := by
  cases es with
  | nil => exact C.pure _
  | cons e es =>
    simp only [Expr.writtenAll, List.forall_mem_append] at written
    rw [Expr.evaluate_cons]
    apply C.bind (eval e written.1)
    intro value
    apply C.bind (evalAll es written.2)
    intro values
    exact C.pure _

end

end Compositional

structure Steady (R : Session → Session → Prop) (own : String → Prop) : Prop extends Lasting R where
  store : ∀ {n}, own n → ∀ value p, Process.Keeps R (evaluate (store n value p))

/-- Whatever a statement that writes only the names does keeps the relation up. -/
structure Frame (R : Session → Session → Prop) (own : String → Prop) : Prop
    extends Steady R own where
  define : ∀ {n}, own n → ∀ value, Process.Keeps R (define n value)
  write : ∀ text, Process.Keeps R (write text)
  scope : ∀ {run : Running Flow}, Process.Keeps R run → Process.Keeps R (inScope run)

namespace Steady

variable {R : Session → Session → Prop} {own : String → Prop} (S : Steady R own)
include S

theorem compositional : Compositional (fun run => Process.Keeps R run) own where
  pure := .pure S.toLasting
  fail := .fail S.toLasting
  bind h k := h.bind S.toLasting k
  fetch name p s t ends := by
    unfold evaluate Evaluating.fetch at ends
    generalize s.scopes.lookup name = found at ends
    cases found <;> (cases ends; exact S.refl s)
  store := S.store

theorem eval (e : Expr) (written : ∀ n ∈ e.written, own n) : Process.Keeps R (evaluate e.eval) :=
  S.compositional.eval e written

theorem evalAll (es : List Expr) (written : ∀ n ∈ Expr.writtenAll es, own n) :
    Process.Keeps R (evaluate (Expr.evalAll es)) :=
  S.compositional.evalAll es written

end Steady

namespace Frame

variable {R : Session → Session → Prop} {own : String → Prop} (F : Frame R own)
include F

theorem repeatWhile {test : Running Value} {body : Running Flow} (h : Process.Keeps R test)
    (k : Process.Keeps R body) (rounds : Nat) (value : Value) :
    Process.Keeps R (repeatWhile test body rounds value) := by
  induction rounds generalizing value with
  | zero => exact .endless
  | succ rounds ih =>
    unfold Running.repeatWhile
    apply h.bind F.toLasting
    intro holds
    split
    · apply k.bind F.toLasting
      intro flow
      cases flow with
      | normal value => exact ih value
      | next p => exact ih value
      | leave p => exact .pure F.toLasting _
    · exact .pure F.toLasting _

mutual

theorem exec (rounds : Nat) (s : Stmt) (written : ∀ n ∈ s.written, own n) :
    Process.Keeps R (s.exec rounds) := by
  cases s with
  | declare name value p =>
    have defined : ∀ value : Value, Process.Keeps R
        (Running.define name value >>= fun _ => Pure.pure (Flow.normal value)) := by
      intro value
      apply (F.define (written name (by simp [Stmt.written])) value).bind F.toLasting
      intro _
      exact .pure F.toLasting _
    cases value with
    | none =>
      rw [Stmt.exec_declare_none]
      exact defined .null
    | some e =>
      have inner : ∀ n ∈ e.written, own n := fun n hn => written n (by simp [Stmt.written, hn])
      rw [Stmt.exec_declare_some]
      exact (F.eval e inner).bind F.toLasting defined
  | expr e =>
    rw [Stmt.exec]
    apply (F.eval e written).bind F.toLasting
    intro value
    exact .pure F.toLasting _
  | print arguments p =>
    rw [Stmt.exec]
    apply (F.evalAll arguments written).bind F.toLasting
    intro values
    apply (F.write _).bind F.toLasting
    intro _
    exact .pure F.toLasting _
  | branch test consequent alternate =>
    simp only [Stmt.written, List.forall_mem_append] at written
    rw [Stmt.exec_branch]
    apply (F.eval test written.1.1).bind F.toLasting
    intro holds
    split
    · exact exec rounds consequent written.1.2
    · cases alternate with
      | none => exact .pure F.toLasting _
      | some s => exact exec rounds s written.2
  | loop test body =>
    simp only [Stmt.written, List.forall_mem_append] at written
    rw [Stmt.exec]
    exact F.repeatWhile (F.eval test written.1) (exec rounds body written.2) rounds _
  | block body =>
    rw [Stmt.exec]
    exact F.scope (execAll rounds body written .null)
  | leave p | next p =>
    rw [Stmt.exec]
    exact .pure F.toLasting _

theorem execAll (rounds : Nat) (body : List Stmt) (written : ∀ n ∈ Stmt.writtenAll body, own n)
    (value : Value) : Process.Keeps R (Stmt.execAll rounds value body) := by
  cases body with
  | nil => exact .pure F.toLasting _
  | cons s body =>
    simp only [Stmt.writtenAll, List.forall_mem_append] at written
    rw [Stmt.execAll]
    apply (exec rounds s written.1).bind F.toLasting
    intro flow
    cases flow with
    | normal value => exact execAll rounds body written.2 value
    | leave p => exact .pure F.toLasting _
    | next p => exact .pure F.toLasting _

end

end Frame

end DaiScript
