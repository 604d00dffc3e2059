import Mathlib.Data.List.Induction
import Mathlib.Data.List.Infix
import DaiScript.Proofs.Columns

/-! Scopes under any sequence of changes. Scopes are counted from the global one up, so a scope
keeps its level as long as it is live. A change that is made above a level leaves the scope there as
it is, but for an assignment that finds its name at no younger level; so between a push and the pop
that undoes it, only such assignments reach the older scopes. -/
namespace DaiScript.Scopes

inductive Change where
  | push
  | pop
  | define (name : String) (value : Value)
  | assign (name : String) (value : Value)

namespace Change

def isPush : Change → Bool
  | push => true
  | pop | define _ _ | assign _ _ => false

def isPop : Change → Bool
  | pop => true
  | push | define _ _ | assign _ _ => false

end Change

def pushes (changes : List Change) : Nat := changes.countP Change.isPush

def pops (changes : List Change) : Nat := changes.countP Change.isPop

def change (s : Scopes) : Change → Scopes
  | .push => s.push
  | .pop => s.pop
  | .define name value => s.define name value
  | .assign name value =>
    match s.assign name value with
    | .ok t => t
    | .error _ => s

def changeAll (s : Scopes) (changes : List Change) : Scopes := changes.foldl change s

def level (s : Scopes) (height : Nat) : Option Scope := s.all.reverse[height]?

/-! ### Single changes -/

section

variable {s t : Scopes} {name : String} {value : Value}

theorem assign_eq_ok_iff : s.assign name value = .ok t ↔ s.assign? name value = some t := by
  unfold assign
  cases s.assign? name value <;> simp

theorem change_assign_of_ok (stored : s.assign name value = .ok t) :
    s.change (.assign name value) = t := by
  rw [change, stored]

theorem change_assign_of_error {fault : Fault} (failed : s.assign name value = .error fault) :
    s.change (.assign name value) = s := by
  rw [change, failed]

theorem exists_of_rebind {scopes found : List Scope} (h : rebind name value scopes = some found) :
    ∃ younger scope older, scopes = younger ++ scope :: older ∧
      found = younger ++ scope.insert name value :: older ∧ (∀ a ∈ younger, ¬ a.Binds name) ∧
      scope.Binds name := by
  induction scopes generalizing found with
  | nil => cases h
  | cons first rest ih =>
    unfold rebind at h
    split at h
    · next bound =>
      cases h
      exact ⟨[], first, rest, rfl, rfl, List.forall_mem_nil _, bound⟩
    · next free =>
      obtain ⟨rest', onward, rfl⟩ := Option.map_eq_some_iff.mp h
      obtain ⟨younger, scope, older, rfl, rfl, others, bound⟩ := ih onward
      exact ⟨first :: younger, scope, older, rfl, rfl,
        List.forall_mem_cons.mpr ⟨free, others⟩, bound⟩

theorem exists_of_assign? (h : s.assign? name value = some t) :
    ∃ younger scope older, s.all = younger ++ scope :: older ∧
      t.all = younger ++ scope.insert name value :: older ∧ (∀ a ∈ younger, ¬ a.Binds name) ∧
      scope.Binds name := by
  apply exists_of_rebind
  rw [← all_assign?, h]
  rfl

end

/-! ### Levels -/

section

variable {s t : Scopes} {height : Nat}

theorem exists_level (live : height < s.depth) : ∃ scope, s.level height = some scope := by
  rw [← length_all, ← List.length_reverse] at live
  exact ⟨_, List.getElem?_eq_getElem live⟩

theorem level_of_cons {a : Scope} {outer : List Scope} (shape : s.all = a :: outer)
    (below : height < outer.length) : s.level height = outer.reverse[height]? := by
  rw [level, shape, List.reverse_cons, List.getElem?_append_left]
  rwa [List.length_reverse]

theorem level_of_append {younger older : List Scope} {scope : Scope}
    (shape : s.all = younger ++ scope :: older) : s.level height =
      if height < older.length then older.reverse[height]?
      else (scope :: younger.reverse)[height - older.length]? := by
  rw [level, shape, List.reverse_append, List.reverse_cons, List.append_assoc, List.getElem?_append,
    List.length_reverse]
  rfl

theorem level_push (live : height < s.depth) : s.push.level height = s.level height :=
  level_of_cons rfl (by rwa [length_all])

theorem exists_top (below : height + 1 < s.depth) :
    ∃ a rest, s.inner = a :: rest ∧ height < (rest ++ [s.global]).length := by
  rw [depth] at below
  obtain ⟨a, rest, shape⟩ := List.exists_cons_of_length_pos (by omega : 0 < s.inner.length)
  rw [shape, List.length_cons] at below
  refine ⟨a, rest, shape, ?_⟩
  rw [List.length_append, List.length_singleton]
  omega

theorem level_pop (below : height + 1 < s.depth) : s.pop.level height = s.level height := by
  obtain ⟨a, rest, shape, inside⟩ := exists_top below
  have all : s.all = a :: (rest ++ [s.global]) := by rw [Scopes.all, shape, List.cons_append]
  rw [level_of_cons all inside, level, Scopes.all, pop, shape]
  rfl

theorem level_define (below : height + 1 < s.depth) (name : String) (value : Value) :
    (s.define name value).level height = s.level height := by
  obtain ⟨a, rest, shape, inside⟩ := exists_top below
  have all : s.all = a :: (rest ++ [s.global]) := by rw [Scopes.all, shape, List.cons_append]
  have defined : (s.define name value).all = a.insert name value :: (rest ++ [s.global]) := by
    rw [define, shape]
    rfl
  rw [level_of_cons all inside, level_of_cons defined inside]

/-- The assignment succeeds, and no scope above the level binds the name. -/
structure Reaches (s : Scopes) (height : Nat) (name : String) (value : Value) : Prop where
  succeeds : ∃ t, s.assign name value = .ok t
  free : ∀ k, height < k → ∀ scope, s.level k = some scope → ¬ scope.Binds name

theorem level_assign {name : String} {value : Value} (stored : s.assign name value = .ok t)
    (height : Nat) : t.level height = s.level height ∨
      ∃ scope, s.level height = some scope ∧ t.level height = some (scope.insert name value) ∧
        scope.Binds name ∧ s.Reaches height name value := by
  obtain ⟨younger, scope, older, before, after, free, bound⟩ :=
    exists_of_assign? (assign_eq_ok_iff.mp stored)
  rw [level_of_append before, level_of_append after]
  obtain lower | rfl | higher := Nat.lt_trichotomy height older.length
  · left
    rw [if_pos lower, if_pos lower]
  · right
    refine ⟨scope, by simp, by simp, bound, ⟨t, stored⟩, ?_⟩
    intro k above found present
    rw [level_of_append before, if_neg (by omega), List.getElem?_cons, if_neg (by omega)] at present
    exact free found (List.mem_reverse.mp (List.mem_of_getElem? present))
  · left
    rw [if_neg (by omega), if_neg (by omega), List.getElem?_cons, List.getElem?_cons,
      if_neg (by omega), if_neg (by omega)]

theorem level_change (below : height + 1 < s.depth) (c : Change) :
    (s.change c).level height = s.level height ∨
      ∃ name value scope, c = .assign name value ∧ s.Reaches height name value ∧
        s.level height = some scope ∧ scope.Binds name ∧
        (s.change c).level height = some (scope.insert name value) := by
  cases c with
  | push => exact .inl (level_push (by omega))
  | pop => exact .inl (level_pop below)
  | define name value => exact .inl (level_define below name value)
  | assign name value =>
    cases stored : s.assign name value with
    | error fault =>
      rw [change_assign_of_error stored]
      exact .inl rfl
    | ok t =>
      rw [change_assign_of_ok stored]
      obtain same | ⟨scope, before, after, bound, reaches⟩ := level_assign stored height
      · exact .inl same
      · exact .inr ⟨name, value, scope, rfl, reaches, before, bound, after⟩

theorem depth_change (inner : 1 < s.depth) (c : Change) :
    (s.change c).depth + pops [c] = s.depth + pushes [c] := by
  cases c with
  | push => rfl
  | pop =>
    change s.inner.tail.length + 1 + 1 = s.inner.length + 1
    rw [depth] at inner
    rw [List.length_tail]
    omega
  | define name value => exact (s.grows_define name value).depth_eq
  | assign name value =>
    cases stored : s.assign name value with
    | error fault =>
      rw [change_assign_of_error stored]
      rfl
    | ok t =>
      rw [change_assign_of_ok stored]
      exact (sameNames_assign? (assign_eq_ok_iff.mp stored)).depth_eq

theorem binds_global_change {name : String} (h : s.global.Binds name) (c : Change) :
    (s.change c).global.Binds name := by
  have insert (other : String) (value : Value) : (s.global.insert other value).Binds name :=
    Scope.binds_insert.mpr (.inr h)
  cases c with
  | push | pop => exact h
  | define other value =>
    change (s.define other value).global.Binds name
    unfold define
    split
    · exact insert other value
    · exact h
  | assign other value =>
    cases stored : s.assign other value with
    | error fault => rwa [change_assign_of_error stored]
    | ok t =>
      rw [change_assign_of_ok stored]
      rw [assign_eq_ok_iff] at stored
      unfold assign? at stored
      split at stored
      · cases stored
        exact h
      · split at stored
        · cases stored
          exact insert other value
        · cases stored

end

/-! ### Runs -/

section

variable {s : Scopes} {changes : List Change}

theorem changeAll_append_singleton (s : Scopes) (changes : List Change) (c : Change) :
    s.changeAll (changes ++ [c]) = (s.changeAll changes).change c :=
  List.foldl_append

theorem binds_global_changeAll {name : String} (h : s.global.Binds name) (changes : List Change) :
    (s.changeAll changes).global.Binds name := by
  induction changes using List.reverseRecOn with
  | nil => exact h
  | append_singleton changes c ih =>
    rw [changeAll_append_singleton]
    exact binds_global_change ih c

/-- No beginning of the changes pops more often than it pushes. -/
def Sheltered (changes : List Change) : Prop :=
  ∀ before, before <+: changes → pops before ≤ pushes before

theorem Sheltered.of_append {more : List Change} (h : Sheltered (changes ++ more)) :
    Sheltered changes :=
  fun before start => h before (start.trans (List.prefix_append changes more))

theorem depth_changeAll (sheltered : Sheltered changes) (inner : 1 < s.depth) :
    (s.changeAll changes).depth + pops changes = s.depth + pushes changes := by
  induction changes using List.reverseRecOn with
  | nil => rfl
  | append_singleton changes c ih =>
    have counted := ih sheltered.of_append
    have fewer := sheltered.of_append changes List.prefix_rfl
    have many : 1 < (s.changeAll changes).depth := by omega
    have step := depth_change many c
    have pops_append : pops (changes ++ [c]) = pops changes + pops [c] := List.countP_append
    have pushes_append : pushes (changes ++ [c]) = pushes changes + pushes [c] := List.countP_append
    rw [changeAll_append_singleton]
    omega

theorem depth_le_changeAll (sheltered : Sheltered changes) (inner : 1 < s.depth) :
    s.depth ≤ (s.changeAll changes).depth := by
  have counted := depth_changeAll sheltered inner
  have fewer := sheltered changes List.prefix_rfl
  omega

/-- One of the changes is an assignment to the name that reaches the level when it is made. -/
def Reassigned (s : Scopes) (changes : List Change) (height : Nat) (name : String) : Prop :=
  ∃ before value after, changes = before ++ .assign name value :: after ∧
    (s.changeAll before).Reaches height name value

theorem Reassigned.append {height : Nat} {name : String} (h : s.Reassigned changes height name)
    (more : List Change) : s.Reassigned (changes ++ more) height name := by
  obtain ⟨before, value, after, rfl, reaches⟩ := h
  exact ⟨before, value, after ++ more, by simp, reaches⟩

/-- What changes made above a level leave of the scope there: its names, and the values that no
assignment has reached. -/
structure Keeps (s : Scopes) (changes : List Change) (height : Nat) (a b : Scope) : Prop where
  names : a.SameNames b
  values : ∀ name, a.get? name ≠ b.get? name → s.Reassigned changes height name

theorem exists_keeps {height : Nat} {a : Scope} (sheltered : Sheltered changes)
    (below : height + 1 < s.depth) (start : s.level height = some a) :
    ∃ b, (s.changeAll changes).level height = some b ∧ s.Keeps changes height a b := by
  induction changes using List.reverseRecOn with
  | nil => exact ⟨a, start, .refl a, fun _ differ => absurd rfl differ⟩
  | append_singleton changes c ih =>
    obtain ⟨b, present, names, values⟩ := ih sheltered.of_append
    have above : height + 1 < (s.changeAll changes).depth :=
      Nat.lt_of_lt_of_le below (depth_le_changeAll sheltered.of_append (by omega))
    rw [changeAll_append_singleton]
    obtain same | ⟨name, value, scope, rfl, reaches, found, bound, after⟩ := level_change above c
    · exact ⟨b, same.trans present, names, fun name differ => (values name differ).append [c]⟩
    · obtain rfl := Option.some.inj (present.symm.trans found)
      refine ⟨_, after, fun other => (names other).trans
        (Scope.sameNames_insert bound value other), ?_⟩
      intro other differ
      rw [Scope.get?_insert] at differ
      split at differ
      · next same =>
        subst same
        exact ⟨changes, value, [], rfl, reaches⟩
      · exact (values other differ).append _

end

/-! ### Lookup and assignment -/

section

variable {s : Scopes} {name : String}

theorem exists_lookup_iff : (∃ v, s.lookup name = .ok v) ↔ (s.get? name).isSome = true := by
  unfold lookup
  cases s.get? name <;> simp

theorem exists_lookup_of_global (h : s.global.Binds name) : ∃ v, s.lookup name = .ok v := by
  rw [exists_lookup_iff, get?, Option.isSome_or, h, Bool.or_true]

theorem exists_assign_iff (value : Value) :
    (∃ t, s.assign name value = .ok t) ↔ ∃ v, s.lookup name = .ok v := by
  simp only [exists_lookup_iff, ← isSome_assign? s name value, assign_eq_ok_iff,
    Option.isSome_iff_exists]

end

/-! ### The contract -/

theorem binds_initial : ∀ word ∈ ["thik", "galat", "khali"], initial.global.Binds word := by
  unfold Scope.Binds
  decide +kernel

/-- Between a push and the pop that undoes it, older scopes are kept but for what assignments
reach. -/
theorem keeps_enclosed (s : Scopes) {changes : List Change} (sheltered : Sheltered changes)
    (even : pops changes = pushes changes) :
    (s.push.changeAll changes).pop.depth = s.depth ∧
      ∀ height < s.depth, ∃ a b, s.level height = some a ∧
        (s.push.changeAll changes).pop.level height = some b ∧ s.push.Keeps changes height a b := by
  have pushed : s.push.depth = s.depth + 1 := rfl
  have live : 0 < s.depth := Nat.succ_pos _
  have counted := depth_changeAll sheltered (by omega : 1 < s.push.depth)
  constructor
  · have closed := depth_change (by omega : 1 < (s.push.changeAll changes).depth) .pop
    change _ + 1 = _ + 0 at closed
    change ((s.push.changeAll changes).change .pop).depth = _
    omega
  · intro height older
    obtain ⟨a, present⟩ := exists_level older
    obtain ⟨b, present', keeps⟩ := exists_keeps sheltered (by omega : height + 1 < s.push.depth)
      ((level_push older).trans present)
    exact ⟨a, b, present, (level_pop (by omega)).trans present', keeps⟩

/-- The contract of the scopes that any changes lead to from the initial ones, even if they pop too
often. At least one scope is live, and the words for the truth values and for nothing can be looked
up. A name can be assigned if it can be looked up; an assignment that succeeds binds the name anew
in the innermost scope that binds it, and nothing else; one that fails changes nothing. After a
push, changes that pop as often as they push and at no point more often, and a pop, the same scopes
are live as before and have the same names, and a name has another value only where an assignment to
it has reached the scope. -/
theorem contract_changeAll (history : List Change) :
    let s := initial.changeAll history
    (0 < s.depth ∧ ∀ word ∈ ["thik", "galat", "khali"], ∃ v, s.lookup word = .ok v) ∧
    (∀ name value,
      ((∃ t, s.assign name value = .ok t) ↔ ∃ v, s.lookup name = .ok v) ∧
      (∀ t, s.assign name value = .ok t → ∃ younger scope scope' older,
        s.all = younger ++ scope :: older ∧ t.all = younger ++ scope' :: older ∧
        (∀ a ∈ younger, ¬ a.Binds name) ∧ scope.Binds name ∧
        ∀ other, scope'.get? other = if other = name then some value else scope.get? other) ∧
      ∀ fault, s.assign name value = .error fault →
        s.change (.assign name value) = s ∧
          ∀ p, Evaluating.store name value p s = .error (fault.locate p) s) ∧
    ∀ changes, Sheltered changes → pops changes = pushes changes →
      let t := (s.push.changeAll changes).pop
      t.depth = s.depth ∧ ∀ height < s.depth, ∃ a b, s.level height = some a ∧
        t.level height = some b ∧ s.push.Keeps changes height a b := by
  intro s
  refine ⟨⟨Nat.succ_pos _, ?_⟩, ?_, fun changes => s.keeps_enclosed⟩
  · intro word member
    exact exists_lookup_of_global (binds_global_changeAll (binds_initial word member) history)
  · intro name value
    refine ⟨exists_assign_iff value, ?_, ?_⟩
    · intro t stored
      obtain ⟨younger, scope, older, before, after, free, bound⟩ :=
        exists_of_assign? (assign_eq_ok_iff.mp stored)
      exact ⟨younger, scope, _, older, before, after, free, bound, scope.get?_insert name value⟩
    · intro fault failed
      refine ⟨change_assign_of_error failed, fun p => ?_⟩
      rw [Evaluating.store, failed]

/-- Two pops too many, then `x` is global. In a scope that binds `y` anew, both are assigned from a
scope inside: `x` has changed once the scope is closed, and `y` has not. -/
theorem contract_changeAll_shadowed :
    let history : List Change :=
      [.pop, .define "x" .null, .push, .pop, .pop, .define "y" .null]
    let changes : List Change := [.define "y" (.bool true), .push, .assign "x" (.bool true),
      .assign "y" (.bool false), .assign "z" .null, .pop]
    let s := initial.changeAll history
    let t := (s.push.changeAll changes).pop
    Sheltered changes ∧ pops changes = pushes changes ∧ t.depth = s.depth ∧
      (∃ v, s.lookup "khali" = .ok v) ∧ (∃ u, s.assign "y" .null = .ok u) ∧
      s.assign "z" .null = .error (undefined "z") ∧ s.change (.assign "z" .null) = s ∧
      s.column "x" = [some .null] ∧ t.column "x" = [some (.bool true)] ∧
      s.push.Reassigned changes 0 "x" ∧ t.column "y" = s.column "y" := by
  intro history changes s t
  have sheltered : Sheltered changes := by
    unfold Sheltered
    simp only [← List.mem_inits]
    decide
  have even : pops changes = pushes changes := rfl
  obtain ⟨⟨-, words⟩, assignments, enclosed⟩ := contract_changeAll history
  obtain ⟨depth, kept⟩ := enclosed changes sheltered even
  have failed : s.assign "z" .null = .error (undefined "z") := rfl
  obtain ⟨a, b, present, present', keeps⟩ := kept 0 (Nat.succ_pos _)
  refine ⟨sheltered, even, depth, words "khali" (by decide),
    (assignments "y" .null).1.mpr ⟨.null, rfl⟩,
    failed, ((assignments "z" .null).2.2 _ failed).1, rfl, rfl, keeps.values "x" ?_, rfl⟩
  have before : some (s.global) = some a := present
  have after : some (t.global) = some b := present'
  cases before
  cases after
  exact fun same => by cases (same : some Value.null = some (.bool true))

end DaiScript.Scopes
