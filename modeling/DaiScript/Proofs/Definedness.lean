import Mathlib.Data.Set.Insert
import DaiScript.Proofs.Origins
import DaiScript.Proofs.ScopeDiscipline
import DaiScript.Proofs.Transport

/-! Names that are declared before they are used are never missing. The check walks the statements
once, with the names known so far; a run may come to bind more names than that, and comes round
loops, but the names known at a statement are bound whenever it is reached. -/
namespace DaiScript

/-! ### The check -/

def Stmt.declares : Stmt → Set String
  | .declare name _ _ => {name}
  | .expr _ | .print _ _ | .branch _ _ _ | .loop _ _ | .block _ | .leave _ | .next _ => ∅

mutual

/-- The statement uses only known names, and those that its own blocks declare before. -/
def Stmt.Declared : Set String → Stmt → Prop
  | known, .declare _ value _ => ∀ e ∈ value, ∀ n ∈ e.names, n ∈ known
  | known, .expr e => ∀ n ∈ e.names, n ∈ known
  | known, .print arguments _ => ∀ n ∈ Expr.namesAll arguments, n ∈ known
  | known, .branch test consequent alternate =>
    (∀ n ∈ test.names, n ∈ known) ∧ consequent.Declared known ∧ Stmt.DeclaredElse known alternate
  | known, .loop test body => (∀ n ∈ test.names, n ∈ known) ∧ body.Declared known
  | known, .block body => Stmt.DeclaredAll known body
  | _, .leave _ | _, .next _ => True

def Stmt.DeclaredElse : Set String → Option Stmt → Prop
  | _, none => True
  | known, some s => s.Declared known

def Stmt.DeclaredAll : Set String → List Stmt → Prop
  | _, [] => True
  | known, s :: body => s.Declared known ∧ Stmt.DeclaredAll (known ∪ s.declares) body

end

/-! ### Bound names -/

namespace Scopes

def Bound (s : Scopes) (name : String) : Prop := ∃ scope ∈ s.all, scope.Binds name

theorem bound_iff {s : Scopes} {name : String} : s.Bound name ↔ (s.get? name).isSome = true := by
  unfold Bound all get?
  simp only [List.mem_append, List.mem_singleton, or_and_right, exists_or, exists_eq_left,
    Option.isSome_or, Bool.or_eq_true, List.findSome?_isSome_iff]
  rfl

theorem exists_of_sameNames {scopes scopes' : List Scope}
    (h : List.Forall₂ Scope.SameNames scopes scopes') {name : String} {a : Scope}
    (live : a ∈ scopes) (binds : a.Binds name) : ∃ b ∈ scopes', b.Binds name := by
  induction h with
  | nil => cases live
  | @cons c d rest rest' same _ ih =>
    rw [List.mem_cons] at live
    obtain rfl | live := live
    · exact ⟨d, List.mem_cons_self, (same name).mp binds⟩
    · obtain ⟨b, live', binds'⟩ := ih live
      exact ⟨b, List.mem_cons_of_mem d live', binds'⟩

theorem Grows.bound {s t : Scopes} (h : s.Grows t) {name : String} (bound : s.Bound name) :
    t.Bound name := by
  obtain @⟨a, b, outer, outer', first, second, more, same⟩ := h
  obtain ⟨scope, live, binds⟩ := bound
  unfold Bound
  rw [second]
  rw [first, List.mem_cons] at live
  obtain rfl | live := live
  · exact ⟨b, List.mem_cons_self, more name binds⟩
  · obtain ⟨scope', live', binds'⟩ := exists_of_sameNames same live binds
    exact ⟨scope', List.mem_cons_of_mem b live', binds'⟩

theorem bound_define (s : Scopes) (name : String) (value : Value) :
    (s.define name value).Bound name := by
  obtain ⟨inner, global⟩ := s
  cases inner with
  | nil => exact ⟨_, List.mem_singleton_self _, Scope.binds_insert.mpr (.inl rfl)⟩
  | cons scope rest => exact ⟨_, List.mem_cons_self, Scope.binds_insert.mpr (.inl rfl)⟩

theorem bound_push {s : Scopes} {name : String} (bound : s.Bound name) : s.push.Bound name := by
  obtain ⟨scope, live, binds⟩ := bound
  exact ⟨scope, List.mem_cons_of_mem _ live, binds⟩

end Scopes

def Session.Binds [Sink] (names : Set String) (s : Session) : Prop := ∀ n ∈ names, s.scopes.Bound n

def Fault.Missing : Fault → Prop
  | .broken (.undefined _) _ => True
  | _ => False

/-! ### Runs -/

open Evaluating Running

/-- From a session that binds the names `before`, the process does not fail for want of a name, and
it leaves a session that binds the names `after`. -/
structure Running.Provides [Sink] (before after : Set String) (run : Running α) : Prop where
  of_done : ∀ {s a t}, s.Binds before → run s = .done a t → t.Binds after
  of_failed : ∀ {s fault t}, s.Binds before → run s = .failed fault t → ¬fault.Missing

namespace Running.Provides

variable [Sink] {before between after known : Set String}

theorem pure (a : α) : Provides known known (Pure.pure a) where
  of_done bound run := by cases run; exact bound
  of_failed _ run := nomatch run

theorem fail {fault : Fault} (other : ¬fault.Missing) :
    Provides before after (Process.fail fault : Running α) where
  of_done _ run := nomatch run
  of_failed _ run := by cases run; exact other

theorem endless : Provides before after (Process.endless : Running α) where
  of_done _ run := nomatch run
  of_failed _ run := nomatch run

theorem bind {run : Running α} {next : α → Running β} (h : Provides before between run)
    (k : ∀ a, Provides between after (next a)) : Provides before after (run >>= next) where
  of_done bound ends := by
    obtain ⟨a, u, first, second⟩ := Process.bind_eq_done_iff.mp ends
    exact (k a).of_done (h.of_done bound first) second
  of_failed bound ends := by
    obtain first | ⟨a, u, first, second⟩ := Process.bind_eq_failed_iff.mp ends
    · exact h.of_failed bound first
    · exact (k a).of_failed (h.of_done bound first) second

theorem fewer {run : Running α} (h : Provides before between run) (sub : after ⊆ between) :
    Provides before after run where
  of_done bound ends n hn := h.of_done bound ends n (sub hn)
  of_failed := h.of_failed

end Running.Provides

/-! #### Operations -/

namespace Value

variable {p : Position} {fault : Fault}

theorem binary_not_missing {op : BinaryOp} {left right : Value}
    (h : binary op left right p = .error fault) : ¬fault.Missing := by
  obtain ⟨expected, found, rfl⟩ | ⟨-, rfl⟩ := binary_fault h <;> exact not_false

private theorem unary_not_missing {op : UnaryOp} {operand : Value}
    (h : unary op operand p = .error fault) :
    ¬fault.Missing := by
  cases op <;> cases operand <;> cases h <;> exact not_false

private theorem update_not_missing {op : UpdateOp} {current : Value} {before : Bool}
    (h : update op current before p = .error fault) : ¬fault.Missing := by
  cases current <;> cases h <;> exact not_false

private theorem assigned_not_missing {op : AssignOp} {current right : Value}
    (h : assigned op current right p = .error fault) : ¬fault.Missing := by
  unfold assigned at h
  split at h
  · cases h
  · exact binary_not_missing h

end Value

/-! #### Expressions -/

section

variable [Sink] {known : Set String} {n : String}

theorem provides_ofResult {result : Except Fault α}
    (h : ∀ {fault}, result = .error fault → ¬fault.Missing) :
    Provides known known (evaluate (ofResult result)) := by
  rw [evaluate_ofResult]
  cases result with
  | ok a => exact .pure a
  | error fault => exact .fail (h rfl)

theorem provides_fetch (hn : n ∈ known) (p : Position) :
    Provides known known (evaluate (fetch n p)) := by
  have found : ∀ {s : Session}, s.Binds known →
      ∃ value, evaluate (fetch n p) s = .done value s := by
    intro s bound
    obtain ⟨value, found⟩ := Option.isSome_iff_exists.mp (Scopes.bound_iff.mp (bound n hn))
    refine ⟨value, ?_⟩
    unfold evaluate fetch Scopes.lookup
    rw [found]
  constructor
  · intro s a t bound ends
    obtain ⟨value, run⟩ := found bound
    rw [run] at ends
    cases ends
    exact bound
  · intro s fault t bound ends
    obtain ⟨value, run⟩ := found bound
    rw [run] at ends
    cases ends

theorem provides_store (hn : n ∈ known) (value : Value) (p : Position) :
    Provides known known (evaluate (store n value p)) where
  of_done bound ends m hm := by
    have kept := store_evaluated n value p (by rw [ends]; rfl)
    exact kept.1.grows.bound (bound m hm)
  of_failed {s fault t} bound ends := by
    have bound := Scopes.bound_iff.mp (bound n hn)
    rw [← Scopes.isSome_assign? _ _ value] at bound
    obtain ⟨scopes, stored⟩ := Option.isSome_iff_exists.mp bound
    unfold evaluate store Scopes.assign at ends
    rw [stored] at ends
    cases ends

private theorem provides_update {target : Expr} (names : ∀ n ∈ target.names, n ∈ known)
    (op : UpdateOp) (before : Bool) (p : Position) :
    Provides known known (evaluate (Expr.update op target before p).eval) := by
  obtain ⟨n, q, rfl⟩ | other := target.name_or_other
  · have hn : n ∈ known := names n (by simp [Expr.names])
    rw [Expr.evaluate_update_name]
    apply (provides_fetch hn p).bind
    intro current
    apply (provides_ofResult Value.update_not_missing).bind
    intro result
    apply (provides_store hn result.1 p).bind
    intro _
    exact .pure _
  · rw [Expr.evaluate_update_other other]
    exact .fail not_false

private theorem provides_assign {target value : Expr} (names : ∀ n ∈ target.names, n ∈ known)
    (h : Provides known known (evaluate value.eval)) (op : AssignOp) (p : Position) :
    Provides known known (evaluate (Expr.assign target op value p).eval) := by
  obtain ⟨n, q, rfl⟩ | other := target.name_or_other
  · have hn : n ∈ known := names n (by simp [Expr.names])
    have stored : ∀ result : Value,
        Provides known known (evaluate (store n result p) >>= fun _ => Pure.pure result) :=
      fun result => (provides_store hn result p).bind fun _ => .pure result
    rw [Expr.evaluate_assign_name]
    apply h.bind
    intro right
    split
    · exact stored right
    · apply (provides_fetch hn p).bind
      intro current
      apply (provides_ofResult Value.assigned_not_missing).bind
      exact stored
  · rw [Expr.evaluate_assign_other other]
    exact .fail not_false

mutual

theorem Expr.provides_eval (e : Expr) (names : ∀ n ∈ e.names, n ∈ known) :
    Provides known known (evaluate e.eval) := by
  cases e with
  | binary left op right p =>
    simp only [Expr.names, List.forall_mem_append] at names
    rw [Expr.evaluate_binary]
    apply (left.provides_eval names.1).bind
    intro value
    split
    · exact .pure _
    · apply (right.provides_eval names.2).bind
      intro value'
      exact provides_ofResult Value.binary_not_missing
  | unary op operand p =>
    rw [Expr.evaluate_unary]
    apply (operand.provides_eval names).bind
    intro value
    exact provides_ofResult Value.unary_not_missing
  | update op target before p =>
    rw [Expr.names] at names
    exact provides_update names op before p
  | assign target op value p =>
    simp only [Expr.names, List.forall_mem_append] at names
    exact provides_assign names.1 (value.provides_eval names.2) op p
  | call callee arguments p =>
    rw [Expr.eval, evaluate_throw]
    exact .fail not_false
  | literal value p =>
    rw [Expr.eval]
    exact .pure _
  | name n p =>
    rw [Expr.eval]
    exact provides_fetch (names n (by simp [Expr.names])) p
  | array items p =>
    rw [Expr.evaluate_array]
    apply (Expr.provides_evalAll items names).bind
    intro values
    exact .pure _

theorem Expr.provides_evalAll (es : List Expr) (names : ∀ n ∈ Expr.namesAll es, n ∈ known) :
    Provides known known (evaluate (Expr.evalAll es)) := by
  cases es with
  | nil => exact .pure _
  | cons e es =>
    simp only [Expr.namesAll, List.forall_mem_append] at names
    rw [Expr.evaluate_cons]
    apply (e.provides_eval names.1).bind
    intro value
    apply (Expr.provides_evalAll es names.2).bind
    intro values
    exact .pure _

end

/-! #### Statements -/

private theorem provides_define (name : String) (value : Value) :
    Provides known (known ∪ {name}) (Running.define name value) where
  of_done {s _ _} bound ends := by
    cases ends
    rintro n (hn | rfl)
    · exact (s.scopes.grows_define name value).bound (bound n hn)
    · exact s.scopes.bound_define n value
  of_failed _ ends := nomatch ends

private theorem provides_write (text : String) : Provides known known (write text) where
  of_done bound ends := by
    unfold write at ends
    split at ends <;> cases ends
    exact bound
  of_failed _ ends := by
    unfold write at ends
    split at ends <;> cases ends
    exact not_false

private theorem provides_inScope {after : Set String} {run : Running Flow}
    (h : Provides known after run) (grows : Process.Keeps Session.Grows run) :
    Provides known known (inScope run) where
  of_done {s flow t} bound ends n hn := by
    have same := inScope_sameNames grows (by rw [ends]; rfl)
    exact same.grows.bound (bound n hn)
  of_failed {s fault t} bound ends := by
    have pushed : Session.Binds known { s with scopes := s.scopes.push } :=
      fun n hn => Scopes.bound_push (bound n hn)
    unfold inScope at ends
    cases inside : run { s with scopes := s.scopes.push } with
    | failed fault' u =>
      rw [inside] at ends
      cases ends
      exact h.of_failed pushed inside
    | done flow u | endless =>
      rw [inside] at ends
      cases ends

private theorem provides_repeatWhile {test : Running Value} {body : Running Flow}
    (h : Provides known known test) (k : Provides known known body) (rounds : Nat) (value : Value) :
    Provides known known (repeatWhile test body rounds value) := by
  induction rounds generalizing value with
  | zero => exact .endless
  | succ rounds ih =>
    unfold repeatWhile
    apply h.bind
    intro holds
    split
    · apply k.bind
      intro flow
      cases flow with
      | normal value => exact ih value
      | next p => exact ih value
      | leave p => exact .pure _
    · exact .pure _

mutual

/-- A statement that passes the check finds its names, and leaves those bound that it declares. -/
theorem Stmt.provides_exec (rounds : Nat) (s : Stmt) {known : Set String} (h : s.Declared known) :
    Provides known (known ∪ s.declares) (s.exec rounds) := by
  cases s with
  | declare name value p =>
    have defined : ∀ v, Provides known (known ∪ {name})
        (Running.define name v >>= fun _ => Pure.pure (Flow.normal v)) :=
      fun v => (provides_define name v).bind fun _ => .pure _
    cases value with
    | none =>
      rw [Stmt.exec_declare_none]
      exact defined .null
    | some e =>
      rw [Stmt.exec_declare_some]
      exact (e.provides_eval (h e rfl)).bind defined
  | expr e =>
    rw [Stmt.declares, Set.union_empty, Stmt.exec]
    exact (e.provides_eval h).bind fun value => .pure _
  | print arguments p =>
    rw [Stmt.declares, Set.union_empty, Stmt.exec]
    apply (Expr.provides_evalAll arguments h).bind
    intro values
    apply (provides_write _).bind
    intro _
    exact .pure _
  | branch test consequent alternate =>
    obtain ⟨names, first, second⟩ := h
    rw [Stmt.declares, Set.union_empty, Stmt.exec_branch]
    apply (test.provides_eval names).bind
    intro holds
    split
    · exact (consequent.provides_exec rounds first).fewer Set.subset_union_left
    · cases alternate with
      | none => exact .pure _
      | some s => exact (s.provides_exec rounds second).fewer Set.subset_union_left
  | loop test body =>
    obtain ⟨names, inner⟩ := h
    rw [Stmt.declares, Set.union_empty, Stmt.exec]
    apply provides_repeatWhile (test.provides_eval names)
    exact (body.provides_exec rounds inner).fewer Set.subset_union_left
  | block body =>
    rw [Stmt.declares, Set.union_empty, Stmt.exec]
    apply provides_inScope (Stmt.provides_execAll rounds body h .null)
    exact frame_grows.execAll rounds body (fun _ _ => trivial) .null
  | leave p | next p =>
    rw [Stmt.declares, Set.union_empty, Stmt.exec]
    exact .pure _

theorem Stmt.provides_execAll (rounds : Nat) (body : List Stmt) {known : Set String}
    (h : Stmt.DeclaredAll known body) (value : Value) :
    Provides known known (Stmt.execAll rounds value body) := by
  cases body with
  | nil => exact .pure _
  | cons s body =>
    rw [Stmt.execAll]
    apply (s.provides_exec rounds h.1).bind
    intro flow
    have rest := Stmt.provides_execAll rounds body h.2
    cases flow with
    | normal value => exact (rest value).fewer Set.subset_union_left
    | leave p => exact (Provides.pure _).fewer Set.subset_union_left
    | next p => exact (Provides.pure _).fewer Set.subset_union_left

end

end

/-- A program that declares each name before it uses it, apart from names that are bound already,
never fails because a name is not bound. -/
theorem Program.exec_ne_undefined [Sink] {known : Set String} {program : Program}
    (declared : Stmt.DeclaredAll known program) {s : Session}
    (bound : ∀ n ∈ known, s.scopes.Bound n) (rounds : Nat) (name : String) (p : Option Position)
    (t : Session) : program.exec rounds s ≠ .failed (.broken (.undefined name) p) t := by
  intro fails
  have provides : Provides known known (program.exec rounds) := by
    unfold Program.exec
    apply (Stmt.provides_execAll rounds program declared .null).bind
    intro flow
    cases flow with
    | normal value => exact .pure _
    | leave p => exact .fail not_false
    | next p => exact .fail not_false
  exact provides.of_failed bound fails trivial

open scoped Buffer

theorem Program.exec_ne_undefined_loop :
    let a : Expr := .name "a" .start
    let clear : Stmt := .expr (.assign a .assign (.literal (.bool false) .start) .start)
    let program : Program :=
      [.branch a (.declare "b" none .start) none,
        .loop a (.block
          [.declare "c" (some a) .start, clear, .branch (.name "c" .start) (.leave .start) none]),
        .print [a] .start]
    let s : Session := ⟨Scopes.initial.define "a" (.bool true), Buffer.empty⟩
    Stmt.DeclaredAll {"a"} program ∧ s.scopes.Bound "a" ∧
      (∃ t, program.exec 2 s = .done .null t ∧ t.sink.printed = "galat\n") ∧
      ∀ rounds name p t, program.exec rounds s ≠ .failed (.broken (.undefined name) p) t := by
  intro a clear program s
  have declared : Stmt.DeclaredAll {"a"} program := by
    simp [program, a, clear, Stmt.DeclaredAll, Stmt.Declared, Stmt.DeclaredElse, Stmt.declares,
      Expr.names, Expr.namesAll]
  have bound : s.scopes.Bound "a" := Scopes.bound_define _ _ _
  refine ⟨declared, bound, ⟨_, rfl, rfl⟩, ?_⟩
  apply exec_ne_undefined declared
  rintro n rfl
  exact bound

end DaiScript
