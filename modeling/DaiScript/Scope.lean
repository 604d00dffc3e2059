import DaiScript.Fault
import DaiScript.Value.Basic

/-! Scopes bind names to values. The bindings of a scope are kept in the order of their names, so a
scope is determined by what its names are bound to. The scopes of a running program form a stack
with the global scope at the bottom, which is a field of its own and cannot be popped. -/
namespace DaiScript

structure Scope where
  bindings : List (String × Value)
  sorted : bindings.Pairwise fun a b => a.1 < b.1

namespace Scope

def empty : Scope := ⟨[], .nil⟩

def get? (s : Scope) (name : String) : Option Value :=
  s.bindings.lookup name

def insertSorted (name : String) (value : Value) :
    List (String × Value) → List (String × Value)
  | [] => [(name, value)]
  | (other, bound) :: rest =>
    if name < other then (name, value) :: (other, bound) :: rest
    else if name = other then (name, value) :: rest
    else (other, bound) :: insertSorted name value rest

theorem mem_insertSorted {name : String} {value : Value} {bindings : List (String × Value)}
    {binding : String × Value} (h : binding ∈ insertSorted name value bindings) :
    binding = (name, value) ∨ binding ∈ bindings := by
  induction bindings with
  | nil => exact Or.inl (List.mem_singleton.1 h)
  | cons first rest ih =>
    unfold insertSorted at h
    split at h <;> grind

theorem sorted_insertSorted (name : String) (value : Value) {bindings : List (String × Value)}
    (h : bindings.Pairwise fun a b => a.1 < b.1) :
    (insertSorted name value bindings).Pairwise fun a b => a.1 < b.1 := by
  induction bindings with
  | nil => exact List.pairwise_singleton _ _
  | cons first rest ih =>
    obtain ⟨other, bound⟩ := first
    rw [List.pairwise_cons] at h
    unfold insertSorted
    split
    · rename_i smaller
      refine List.pairwise_cons.2 ⟨fun b hb => ?_, List.pairwise_cons.2 h⟩
      rcases List.mem_cons.1 hb with rfl | hb
      · exact smaller
      · exact String.lt_trans smaller (h.1 b hb)
    · split
      · rename_i same
        subst same
        exact List.pairwise_cons.2 h
      · rename_i notSmaller different
        refine List.pairwise_cons.2 ⟨fun b hb => ?_, ih h.2⟩
        rcases mem_insertSorted hb with rfl | hb
        · exact Std.lt_of_le_of_ne (Std.not_lt.1 notSmaller) (Ne.symm different)
        · exact h.1 b hb

def insert (s : Scope) (name : String) (value : Value) : Scope :=
  ⟨insertSorted name value s.bindings, sorted_insertSorted name value s.sorted⟩

theorem lookup_insertSorted (name : String) (value : Value) (bindings : List (String × Value))
    (other : String) :
    (insertSorted name value bindings).lookup other =
      if other = name then some value else bindings.lookup other := by
  induction bindings with
  | nil => grind [insertSorted]
  | cons first rest ih => grind [insertSorted]

theorem get?_insert (s : Scope) (name : String) (value : Value) (other : String) :
    (s.insert name value).get? other = if other = name then some value else s.get? other :=
  lookup_insertSorted name value s.bindings other

theorem lookup_eq_none_of_lt (name : String) (bindings : List (String × Value))
    (h : ∀ b ∈ bindings, name < b.1) : bindings.lookup name = none := by
  rw [List.lookup_eq_none_iff]
  intro b hb
  have smaller := h b hb
  have different : name ≠ b.1 := by
    intro same
    exact String.lt_irrefl _ (same ▸ smaller)
  simpa using different

theorem lookup_cons_self (binding : String × Value) (bindings : List (String × Value)) :
    (binding :: bindings).lookup binding.1 = some binding.2 := by
  obtain ⟨name, value⟩ := binding
  simp

theorem lookup_cons_of_ne {name : String} {binding : String × Value} (h : name ≠ binding.1)
    (bindings : List (String × Value)) :
    (binding :: bindings).lookup name = bindings.lookup name := by
  obtain ⟨other, value⟩ := binding
  have miss : (name == other) = false := by simpa using h
  simp [List.lookup_cons, miss]

theorem lookup_eq_none_of_lt_head {name : String} {binding : String × Value}
    {bindings : List (String × Value)} (less : name < binding.1)
    (h : ∀ b ∈ bindings, binding.1 < b.1) : (binding :: bindings).lookup name = none := by
  apply lookup_eq_none_of_lt
  intro b hb
  rcases List.mem_cons.1 hb with rfl | hb
  · exact less
  · exact String.lt_trans less (h b hb)

theorem bindings_eq_of_lookup {first second : List (String × Value)}
    (hFirst : first.Pairwise fun a b => a.1 < b.1) (hSecond : second.Pairwise fun a b => a.1 < b.1)
    (h : ∀ name, first.lookup name = second.lookup name) : first = second := by
  induction first generalizing second with
  | nil =>
    cases second with
    | nil => rfl
    | cons b second => simpa [lookup_cons_self] using h b.1
  | cons a first ih =>
    cases second with
    | nil => simpa [lookup_cons_self] using h a.1
    | cons b second =>
      rw [List.pairwise_cons] at hFirst hSecond
      have sameName : a.1 = b.1 := by
        rcases Std.lt_trichotomy a.1 b.1 with less | same | greater
        · have := h a.1
          simp [lookup_cons_self, lookup_eq_none_of_lt_head less hSecond.1] at this
        · exact same
        · have := h b.1
          simp [lookup_cons_self, lookup_eq_none_of_lt_head greater hFirst.1] at this
      have sameValue : a.2 = b.2 := by
        have := h a.1
        rwa [lookup_cons_self, sameName, lookup_cons_self, Option.some.injEq] at this
      rw [Prod.ext sameName sameValue, ih hFirst.2 hSecond.2]
      intro name
      by_cases hit : name = a.1
      · rw [hit, lookup_eq_none_of_lt _ _ hFirst.1, sameName, lookup_eq_none_of_lt _ _ hSecond.1]
      · have := h name
        rwa [lookup_cons_of_ne hit, lookup_cons_of_ne (sameName ▸ hit)] at this

theorem eq_of_get? {first second : Scope} (h : ∀ name, first.get? name = second.get? name) :
    first = second := by
  obtain ⟨bindings, sorted⟩ := first
  obtain ⟨others, othersSorted⟩ := second
  have := bindings_eq_of_lookup sorted othersSorted h
  subst this
  rfl

end Scope

structure Scopes where
  /-- The scopes of the open blocks, the innermost first. -/
  inner : List Scope
  global : Scope

namespace Scopes

def initial : Scopes where
  inner := []
  global :=
    ((Scope.empty.insert "thik" (.bool true)).insert "galat" (.bool false)).insert "khali" .null

def depth (s : Scopes) : Nat := s.inner.length + 1

def push (s : Scopes) : Scopes := { s with inner := .empty :: s.inner }

/-- Closes the innermost scope; the global scope stays. -/
def pop (s : Scopes) : Scopes := { s with inner := s.inner.tail }

def define (s : Scopes) (name : String) (value : Value) : Scopes :=
  match s.inner with
  | [] => { s with global := s.global.insert name value }
  | scope :: rest => { s with inner := scope.insert name value :: rest }

def get? (s : Scopes) (name : String) : Option Value :=
  (s.inner.findSome? (·.get? name)).or (s.global.get? name)

def rebind (name : String) (value : Value) : List Scope → Option (List Scope)
  | [] => none
  | scope :: rest =>
    if (scope.get? name).isSome then some (scope.insert name value :: rest)
    else (rebind name value rest).map (scope :: ·)

def assign? (s : Scopes) (name : String) (value : Value) : Option Scopes :=
  match rebind name value s.inner with
  | some inner => some { s with inner }
  | none =>
    if (s.global.get? name).isSome then some { s with global := s.global.insert name value }
    else none

def undefined (name : String) : Fault := .broken (.undefined name) none

def lookup (s : Scopes) (name : String) : Except Fault Value :=
  match s.get? name with
  | some value => .ok value
  | none => .error (undefined name)

def assign (s : Scopes) (name : String) (value : Value) : Except Fault Scopes :=
  match s.assign? name value with
  | some s => .ok s
  | none => .error (undefined name)

end Scopes

end DaiScript
