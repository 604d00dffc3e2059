import DaiScript.Proofs.ScopeDiscipline
import DaiScript.Proofs.Transport

/-! The name that a block declares first can be replaced by any name that does not occur behind it.
The scopes of the two runs differ by the renaming from the block's own scope upwards and are equal
below it, and the block's own scope keeps the name bound, so a use of the name never gets below
it. -/
namespace DaiScript

open Evaluating Running

def respell (x y name : String) : String := if name = x then y else name

def Stmt.renamedAll (x y : String) (body : List Stmt) : List Stmt :=
  Stmt.transportAll (respell x y) id body

section

variable {x y name other : String}

theorem respell_of_ne (h : name ≠ x) : respell x y name = name := by
  rw [respell, if_neg h]

private theorem respell_inj (h : name ≠ y) (k : other ≠ y) :
    respell x y name = respell x y other ↔ name = other := by
  unfold respell
  split <;> split <;> grind

private theorem respell_self (x : String) : respell x x = id := by
  funext name
  unfold respell
  split
  · next same => exact same.symm
  · rfl

/-- All names but `y`, which nothing asks for, are bound alike up to the renaming. -/
def Scope.Renames (x y : String) (a b : Scope) : Prop :=
  ∀ name, name ≠ y → b.get? (respell x y name) = a.get? name

theorem Scope.Renames.insert {a b : Scope} (h : a.Renames x y b) (hn : name ≠ y) (value : Value) :
    (a.insert name value).Renames x y (b.insert (respell x y name) value) := by
  intro other ho
  rw [Scope.get?_insert, Scope.get?_insert, h other ho]
  simp only [respell_inj ho hn]

theorem Scope.Renames.empty : Scope.empty.Renames x y Scope.empty :=
  fun _ _ => rfl

theorem Scope.Renames.bound (a : Scope) (x y : String) (value : Value) :
    (a.insert x value).Renames x y (a.insert y value) := by
  intro name hn
  rw [Scope.get?_insert, Scope.get?_insert]
  by_cases same : name = x
  · rw [if_pos same, respell, if_pos same, if_pos rfl]
  · rw [if_neg same, respell_of_ne same, if_neg hn]

/-- The scopes of so many blocks differ by the renaming down to a scope that binds `x`, and those
below are the same. -/
inductive Stacked (x y : String) : Nat → List Scope → List Scope → Prop
  | base {a b : Scope} {below : List Scope} :
      a.Renames x y b → (a.get? x).isSome = true → Stacked x y 0 (a :: below) (b :: below)
  | above {a b : Scope} {depth : Nat} {scopes scopes' : List Scope} :
      a.Renames x y b → Stacked x y depth scopes scopes' →
      Stacked x y (depth + 1) (a :: scopes) (b :: scopes')

namespace Stacked

variable {depth : Nat} {scopes scopes' : List Scope}

theorem findSome? (h : Stacked x y depth scopes scopes') (hn : name ≠ y) :
    scopes'.findSome? (·.get? (respell x y name)) = scopes.findSome? (·.get? name) := by
  induction h with
  | @base a b below renames bound =>
    rw [List.findSome?_cons, List.findSome?_cons, renames name hn]
    by_cases same : name = x
    · obtain ⟨value, found⟩ := Option.isSome_iff_exists.mp bound
      rw [same, found]
    · rw [respell_of_ne same]
  | above renames _ ih => rw [List.findSome?_cons, List.findSome?_cons, renames name hn, ih]

theorem isSome_findSome? (h : Stacked x y depth scopes scopes') :
    (scopes.findSome? (·.get? x)).isSome = true := by
  induction h with
  | base _ bound =>
    obtain ⟨value, found⟩ := Option.isSome_iff_exists.mp bound
    rw [List.findSome?_cons, found]
    rfl
  | @above a b depth scopes scopes' _ _ ih =>
    rw [List.findSome?_cons]
    cases a.get? x with
    | none => exact ih
    | some value => rfl

theorem rebind (h : Stacked x y depth scopes scopes') (hn : name ≠ y) {value : Value}
    {found : List Scope} (run : Scopes.rebind name value scopes = some found) :
    ∃ found', Scopes.rebind (respell x y name) value scopes' = some found' ∧
      Stacked x y depth found found' := by
  induction h generalizing found with
  | @base a b below renames bound =>
    unfold Scopes.rebind at run ⊢
    rw [renames name hn]
    split at run
    · next hit =>
      cases run
      exact ⟨_, if_pos hit, .base (renames.insert hn value) (Scope.binds_insert.mpr (.inr bound))⟩
    · next miss =>
      have keeps : respell x y name = name := respell_of_ne (by rintro rfl; exact miss bound)
      obtain ⟨rest, onward, rfl⟩ := Option.map_eq_some_iff.mp run
      rw [if_neg miss, keeps, onward]
      exact ⟨_, rfl, .base renames bound⟩
  | above renames above ih =>
    unfold Scopes.rebind at run ⊢
    rw [renames name hn]
    split at run
    · next hit =>
      cases run
      exact ⟨_, if_pos hit, .above (renames.insert hn value) above⟩
    · next miss =>
      obtain ⟨rest, onward, rfl⟩ := Option.map_eq_some_iff.mp run
      obtain ⟨rest', onward', stacked⟩ := ih onward
      rw [if_neg miss, onward']
      exact ⟨_, rfl, .above renames stacked⟩

private theorem rebind_none (h : Stacked x y depth scopes scopes') (hn : name ≠ y) {value : Value}
    (run : Scopes.rebind name value scopes = none) :
    Scopes.rebind (respell x y name) value scopes' = none ∧ name ≠ x := by
  have missing := Scopes.isSome_rebind name value scopes
  rw [run, Option.isSome_none] at missing
  constructor
  · rw [← Option.not_isSome_iff_eq_none, Scopes.isSome_rebind, h.findSome? hn, ← missing]
    simp
  · rintro rfl
    rw [h.isSome_findSome?] at missing
    contradiction

theorem define {a b : Scope} (h : Stacked x y depth (a :: scopes) (b :: scopes')) (hn : name ≠ y)
    (value : Value) :
    Stacked x y depth (a.insert name value :: scopes)
      (b.insert (respell x y name) value :: scopes') := by
  cases h with
  | above renames above => exact .above (renames.insert hn value) above
  | base renames bound =>
    exact .base (renames.insert hn value) (Scope.binds_insert.mpr (.inr bound))

theorem exists_cons (h : Stacked x y depth scopes scopes') :
    ∃ a rest b rest', scopes = a :: rest ∧ scopes' = b :: rest' := by
  cases h <;> exact ⟨_, _, _, _, rfl, rfl⟩

theorem tail (h : Stacked x y (depth + 1) scopes scopes') :
    Stacked x y depth scopes.tail scopes'.tail := by
  cases h with
  | above _ stacked => exact stacked

theorem tail_eq (h : Stacked x y 0 scopes scopes') : scopes'.tail = scopes.tail := by
  cases h with
  | base => rfl

end Stacked

def Simulation.respelling (x y : String) : Simulation where
  names := respell x y
  places := id
  known name := name ≠ y
  scopes depth s t := Stacked x y depth s.inner t.inner ∧ t.global = s.global
  get := by
    rintro depth s t name ⟨stacked, global⟩ hn
    unfold Scopes.get?
    rw [stacked.findSome? hn, global]
    by_cases same : name = x
    · have bound := stacked.isSome_findSome?
      rw [← same] at bound
      obtain ⟨value, found⟩ := Option.isSome_iff_exists.mp bound
      rw [found, Option.some_or, Option.some_or]
    · rw [respell_of_ne same]
  unbound := by
    rintro depth s t name ⟨stacked, -⟩ hn missing
    apply respell_of_ne
    rintro rfl
    unfold Scopes.get? at missing
    rw [Option.or_eq_none_iff] at missing
    have bound := stacked.isSome_findSome?
    rw [missing.1] at bound
    contradiction
  assign := by
    rintro depth s t name value s' ⟨stacked, global⟩ hn run
    unfold Scopes.assign? at run ⊢
    cases found : Scopes.rebind name value s.inner with
    | some inner =>
      rw [found] at run
      cases run
      obtain ⟨inner', found', stacked'⟩ := stacked.rebind hn found
      rw [found']
      exact ⟨_, rfl, stacked', global⟩
    | none =>
      obtain ⟨found', other⟩ := stacked.rebind_none hn found
      rw [found] at run
      rw [found', respell_of_ne other, global]
      dsimp only at run ⊢
      split at run
      · next hit =>
        cases run
        exact ⟨_, if_pos hit, stacked, rfl⟩
      · cases run
  define := by
    rintro depth s t name value ⟨stacked, global⟩ hn
    obtain ⟨a, rest, b, rest', hs, ht⟩ := stacked.exists_cons
    rw [hs, ht] at stacked
    simp only [Scopes.define, hs, ht]
    exact ⟨stacked.define hn value, global⟩
  push := fun ⟨stacked, global⟩ => ⟨.above .empty stacked, global⟩
  pop := by
    rintro depth s t ⟨stacked, global⟩
    exact ⟨stacked.tail, global⟩

private theorem eq_of_matches [Sink] {o o' : Outcome Fault Session Flow}
    (h : Outcome.Matches ((Simulation.respelling x y).inside (fun _ => False) 0)
      (Simulation.respelling x y).flows o o') :
    o.mapState (fun s => { s with scopes := s.scopes.pop }) =
      o'.mapState (fun s => { s with scopes := s.scopes.pop }) := by
  have same : ∀ {s t : Session},
      ((Simulation.respelling x y).inside (fun _ => False) 0).state s t →
        ({ s with scopes := s.scopes.pop } : Session) = { t with scopes := t.scopes.pop } := by
    rintro ⟨⟨inner, global⟩, sink⟩ ⟨⟨inner', global'⟩, _⟩ ⟨⟨stacked, rfl⟩, rfl⟩
    simp only [Scopes.pop, stacked.tail_eq]
  cases h with
  | done flow state =>
    have image : _ = _ := flow
    rw [Simulation.respelling, Flow.moved_id] at image
    rw [Outcome.mapState, Outcome.mapState, same state, image]
  | failed error state =>
    have image : _ = _ := error
    rw [Simulation.respelling, Fault.moved_id] at image
    rw [Outcome.mapState, Outcome.mapState, same state, image]
  | endless => rfl
  | excusedFailed impossible => exact impossible.elim
  | excusedEndless impossible => exact impossible.elim

end

/-- A name that a block declares first can be replaced by one that does not occur in the rest of the
block: on every session, the block ends alike, or does not end alike. -/
theorem exec_block_renamedAll [Sink] {y : String} {rest : List Stmt}
    (fresh : y ∉ Stmt.namesAll rest) (x : String) (e : Expr) (p : Position) (rounds : Nat)
    (s : Session) :
    (Stmt.block (.declare x (some e) p :: rest)).exec rounds s =
      (Stmt.block (.declare y (some e) p :: Stmt.renamedAll x y rest)).exec rounds s := by
  by_cases same : x = y
  · subst same
    rw [Stmt.renamedAll, respell_self, Stmt.transportAll_id]
  rw [Stmt.exec, Stmt.exec, Stmt.execAll_declare, Stmt.execAll_declare]
  unfold inScope
  simp only [Process.bind_apply]
  -- The initial value is computed before either name is bound, so the runs are the same so far.
  cases run : evaluate e.eval { s with scopes := s.scopes.push } with
  | failed fault t => rfl
  | endless => rfl
  | done value t =>
    have kept : Session.Evaluated { s with scopes := s.scopes.push } t :=
      eval_evaluated e (by rw [run]; rfl)
    obtain ⟨a, below, opened⟩ := exists_inner kept rfl
    have stacked : Stacked x y 0 (a.insert x value :: below) (a.insert y value :: below) :=
      .base (.bound a x y value) (by rw [Scope.get?_insert, if_pos rfl]; rfl)
    have known : ∀ n ∈ Stmt.namesAll rest, n ≠ y := by
      rintro n hn rfl
      exact fresh hn
    apply eq_of_matches
    apply Simulation.execAll_matches rest known (.refl rounds) value
    simp only [Scopes.define, opened]
    exact ⟨⟨stacked, rfl⟩, rfl⟩

open scoped Buffer

theorem exec_block_renamedAll_shadowed :
    let value (b : Bool) : Expr := .literal (.bool b) .start
    let rest (x : String) : List Stmt :=
      [.loop (.name x .start)
        (.block [.expr (.assign (.name x .start) .assign (value false) .start),
          .declare x none .start, .print [.name x .start] .start]),
        .print [.name x .start] .start]
    let outside : Session := ⟨Scopes.initial.define "m" (.bool true), Buffer.empty⟩
    "m" ∉ Stmt.namesAll (rest "n") ∧
      Stmt.renamedAll "n" "m" (rest "n") = rest "m" ∧
      ∃ t, (Stmt.block (.declare "m" (some (value true)) .start :: rest "m")).exec 2 outside =
          .done (.normal .null) t ∧
        t.scopes = outside.scopes ∧ t.sink.printed = "khali\ngalat\n" := by
  intro value rest outside
  have fresh : "m" ∉ Stmt.namesAll (rest "n") := by decide
  have renamed : Stmt.renamedAll "n" "m" (rest "n") = rest "m" := rfl
  have same := exec_block_renamedAll fresh "n" (value true) .start 2 outside
  rw [renamed] at same
  refine ⟨fresh, renamed, ?_⟩
  rw [← same]
  exact ⟨_, rfl, rfl, rfl⟩

end DaiScript
