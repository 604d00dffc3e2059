import Mathlib.Data.List.Forall2
import DaiScript.Proofs.Upkeep

/-! The scopes that a run leaves behind. However a run ends, it closes all the scopes it opened, and
no scope loses a name. Expressions and blocks leave the names of all scopes as they were; other
statements may add names to the innermost scope. -/
namespace DaiScript

open Evaluating Running

namespace Scope

def Binds (s : Scope) (name : String) : Prop := (s.get? name).isSome = true

def SameNames (a b : Scope) : Prop := ∀ name, a.Binds name ↔ b.Binds name

theorem binds_insert {s : Scope} {name other : String} {value : Value} :
    (s.insert name value).Binds other ↔ other = name ∨ s.Binds other := by
  unfold Binds
  rw [get?_insert]
  split <;> simp_all

theorem sameNames_insert {s : Scope} {name : String} (h : s.Binds name) (value : Value) :
    s.SameNames (s.insert name value) := by
  intro other
  rw [binds_insert]
  constructor
  · exact .inr
  · rintro (rfl | bound)
    · exact h
    · exact bound

theorem SameNames.refl (s : Scope) : s.SameNames s := fun _ => .rfl

instance : Std.Refl SameNames := ⟨SameNames.refl⟩

theorem sameNames_trans {first second third : List Scope}
    (h : List.Forall₂ SameNames first second) (k : List.Forall₂ SameNames second third) :
    List.Forall₂ SameNames first third := by
  induction h generalizing third with
  | nil => exact k
  | cons same _ ih =>
    cases k with
    | cons same' rest => exact .cons (fun name => (same name).trans (same' name)) (ih rest)

end Scope

namespace Scopes

def all (s : Scopes) : List Scope := s.inner ++ [s.global]

theorem length_all (s : Scopes) : s.all.length = s.depth := by
  simp [all, depth]

def SameNames (s t : Scopes) : Prop := List.Forall₂ Scope.SameNames s.all t.all

/-- The same scopes are live, and none but the innermost has other names than before, which has
lost none. -/
inductive Grows (s t : Scopes) : Prop
  | intro {a b : Scope} {outer outer' : List Scope} :
      s.all = a :: outer → t.all = b :: outer' → (∀ name, a.Binds name → b.Binds name) →
      List.Forall₂ Scope.SameNames outer outer' → Grows s t

theorem exists_all (s : Scopes) : ∃ a outer, s.all = a :: outer := by
  cases h : s.all with
  | nil => simp [all] at h
  | cons a outer => exact ⟨a, outer, rfl⟩

theorem SameNames.refl (s : Scopes) : s.SameNames s := List.forall₂_refl _

theorem SameNames.trans {s t u : Scopes} (h : s.SameNames t) (k : t.SameNames u) : s.SameNames u :=
  Scope.sameNames_trans h k

theorem SameNames.grows {s t : Scopes} (h : s.SameNames t) : s.Grows t := by
  obtain ⟨a, outer, shape⟩ := s.exists_all
  obtain ⟨b, outer', shape'⟩ := t.exists_all
  rw [SameNames, shape, shape', List.forall₂_cons] at h
  exact ⟨shape, shape', fun name => (h.1 name).mp, h.2⟩

theorem Grows.trans {s t u : Scopes} (h : s.Grows t) (k : t.Grows u) : s.Grows u := by
  obtain ⟨first, second, more, same⟩ := h
  obtain ⟨second', third, more', same'⟩ := k
  obtain ⟨rfl, rfl⟩ := List.cons.inj (second.symm.trans second')
  exact ⟨first, third, fun name bound => more' name (more name bound),
    Scope.sameNames_trans same same'⟩

theorem SameNames.depth_eq {s t : Scopes} (h : s.SameNames t) : t.depth = s.depth := by
  rw [← length_all, ← length_all, List.Forall₂.length_eq h]

theorem Grows.depth_eq {s t : Scopes} (h : s.Grows t) : t.depth = s.depth := by
  obtain ⟨first, second, -, same⟩ := h
  rw [← length_all, ← length_all, first, second, List.length_cons, List.length_cons, same.length_eq]

/-! ### Single changes -/

theorem sameNames_rebind {name : String} {value : Value} {scopes found : List Scope}
    (h : rebind name value scopes = some found) : List.Forall₂ Scope.SameNames scopes found := by
  induction scopes generalizing found with
  | nil => cases h
  | cons scope rest ih =>
    unfold rebind at h
    split at h
    · next bound =>
      cases h
      exact .cons (Scope.sameNames_insert bound value) (List.forall₂_refl rest)
    · obtain ⟨rest', onward, rfl⟩ := Option.map_eq_some_iff.mp h
      exact .cons (Scope.SameNames.refl scope) (ih onward)

theorem sameNames_assign? {s t : Scopes} {name : String} {value : Value}
    (h : s.assign? name value = some t) : s.SameNames t := by
  unfold assign? at h
  split at h
  · next found =>
    cases h
    exact List.rel_append (sameNames_rebind found) (List.forall₂_refl _)
  · split at h
    · next bound =>
      cases h
      exact List.rel_append (List.forall₂_refl _)
        (.cons (Scope.sameNames_insert bound value) .nil)
    · cases h

theorem grows_define (s : Scopes) (name : String) (value : Value) :
    s.Grows (s.define name value) := by
  have more : ∀ (a : Scope) other, a.Binds other → (a.insert name value).Binds other :=
    fun a other bound => Scope.binds_insert.mpr (.inr bound)
  obtain ⟨inner, global⟩ := s
  cases inner with
  | nil => exact ⟨rfl, rfl, more global, .nil⟩
  | cons a rest => exact ⟨rfl, rfl, more a, List.forall₂_refl _⟩

theorem sameNames_pop {s t : Scopes} (h : s.push.Grows t) : s.SameNames t.pop := by
  obtain ⟨first, second, -, same⟩ := h
  obtain ⟨rfl, rfl⟩ := List.cons.inj (first : Scope.empty :: s.all = _)
  obtain ⟨inner, global⟩ := t
  cases inner with
  | nil =>
    obtain ⟨-, rfl⟩ := List.cons.inj (second : [global] = _)
    have : s.all.length = 0 := same.length_eq
    rw [length_all, depth] at this
    omega
  | cons a rest =>
    obtain ⟨-, rfl⟩ := List.cons.inj (second : a :: (rest ++ [global]) = _)
    exact same

end Scopes

/-! ### Runs -/

section

variable [Sink]

def Session.Evaluated (s t : Session) : Prop :=
  s.scopes.SameNames t.scopes ∧ t.sink = s.sink

def Session.Grows (s t : Session) : Prop := s.scopes.Grows t.scopes

theorem store_evaluated (name : String) (value : Value) (p : Position) :
    Process.Keeps Session.Evaluated (evaluate (store name value p)) := by
  intro s t ends
  obtain rfl | ⟨scopes, stored, rfl⟩ := cases_of_store ends
  · exact ⟨.refl _, rfl⟩
  · exact ⟨Scopes.sameNames_assign? stored, rfl⟩

private theorem steady_evaluated : Steady Session.Evaluated fun _ => True where
  refl _ := ⟨.refl _, rfl⟩
  trans h k := ⟨h.1.trans k.1, k.2.trans h.2⟩
  store _ := store_evaluated _

theorem eval_evaluated (e : Expr) : Process.Keeps Session.Evaluated (evaluate e.eval) :=
  steady_evaluated.eval e fun _ _ => trivial

theorem inScope_sameNames {run : Running Flow} (h : Process.Keeps Session.Grows run) {s t : Session}
    (ends : (inScope run s).state? = some t) : s.scopes.SameNames t.scopes := by
  obtain ⟨u, inside, rfl⟩ := exists_of_inScope ends
  exact Scopes.sameNames_pop (h inside)

theorem frame_grows : Frame Session.Grows fun _ => True where
  refl s := (Scopes.SameNames.refl s.scopes).grows
  trans := Scopes.Grows.trans
  store _ value p _ _ ends := (store_evaluated _ value p ends).1.grows
  define _ value s _ := by
    rintro ⟨⟩
    exact s.scopes.grows_define _ value
  write text s t ends := by
    rw [Session.Grows, scopes_of_write ends]
    exact (Scopes.SameNames.refl _).grows
  scope h _ _ ends := (inScope_sameNames h ends).grows

theorem exists_inner {s t : Session} {a : Scope} {below : List Scope}
    (h : s.Evaluated t) (opened : s.scopes.inner = a :: below) :
    ∃ b below', t.scopes.inner = b :: below' := by
  have depth := h.1.depth_eq
  unfold Scopes.depth at depth
  rw [opened, List.length_cons] at depth
  exact List.exists_cons_of_length_pos (by omega)

private theorem exists_state?_evaluate (x : Evaluating α) (s : Session) :
    ∃ t, (evaluate x s).state? = some t := by
  unfold evaluate
  cases x s.scopes <;> exact ⟨_, rfl⟩

/-- However a run ends, as many scopes are live as before and none has lost a name. An expression
always ends; it changes no names and writes nothing. A block changes no names. Any other statement
may add names to the innermost scope and to no other. -/
theorem scopes_kept :
    (∀ (e : Expr) (s : Session), ∃ t, (evaluate e.eval s).state? = some t ∧
      t.scopes.depth = s.scopes.depth ∧ s.scopes.SameNames t.scopes ∧ t.sink = s.sink) ∧
    (∀ (rounds : Nat) (body : List Stmt) (s t : Session),
      ((Stmt.block body).exec rounds s).state? = some t →
        t.scopes.depth = s.scopes.depth ∧ s.scopes.SameNames t.scopes) ∧
    (∀ (rounds : Nat) (statement : Stmt) (s t : Session),
      (statement.exec rounds s).state? = some t →
        t.scopes.depth = s.scopes.depth ∧ s.scopes.Grows t.scopes) := by
  refine ⟨?_, ?_, ?_⟩
  · intro e s
    obtain ⟨t, ends⟩ := exists_state?_evaluate e.eval s
    obtain ⟨same, unwritten⟩ := eval_evaluated e ends
    exact ⟨t, ends, same.depth_eq, same, unwritten⟩
  · intro rounds body s t ends
    rw [Stmt.exec] at ends
    have inside := frame_grows.execAll rounds body (fun _ _ => trivial) .null
    have same := inScope_sameNames inside ends
    exact ⟨same.depth_eq, same⟩
  · intro rounds statement s t ends
    have grows : s.scopes.Grows t.scopes :=
      frame_grows.exec rounds statement (fun _ _ => trivial) ends
    exact ⟨grows.depth_eq, grows⟩

end

/-- Has room for so many characters, and keeps what fits of a text that it refuses. -/
abbrev Sink.bounded (size : Nat) : Sink where
  State := List Char
  write text taken :=
    let all := taken ++ text.toList
    if all.length ≤ size then .ok () all else .error "full" (all.take size)

theorem scopes_kept_refused :
    letI := Sink.bounded 7
    let s : Session := .initial []
    let always : Expr := .literal (.bool true) .start
    let line : Stmt := .print [.name "a" .start] .start
    let body : List Stmt := [.declare "a" (some always) .start, line, line]
    let bare : Stmt := .branch always (.declare "a" none .start) none
    (∃ t, (Stmt.block body).exec 1 s = .failed (.output "full") t ∧ t.sink = "thik\nth".toList ∧
      s.scopes.SameNames t.scopes) ∧
    ∃ value t, bare.exec 1 s = .done value t ∧ s.scopes.Grows t.scopes ∧
      t.scopes.global.Binds "a" := by
  let _ : Sink := .bounded 7
  intro s always line body bare
  have refused : ∃ t, (Stmt.block body).exec 1 s = .failed (.output "full") t ∧
      t.sink = "thik\nth".toList := ⟨_, rfl, rfl⟩
  obtain ⟨t, run, kept⟩ := refused
  refine ⟨⟨t, run, kept, (scopes_kept.2.1 1 body s t (by rw [run]; rfl)).2⟩, ?_⟩
  exact ⟨_, _, rfl, (scopes_kept.2.2 1 bare s _ rfl).2, rfl⟩

end DaiScript
