import DaiScript.Proofs.ScopeDiscipline
import DaiScript.Proofs.Transport

/-! The live scopes as a table, with a row for each scope and a column for each name. What a name
does is decided by its column alone, and whatever happens under one name leaves all other columns as
they are; so two tables can be compared column by column. -/
namespace DaiScript.Scopes

def column (s : Scopes) (name : String) : List (Option Value) := s.all.map (·.get? name)

def overwrite (value : Value) : List (Option Value) → List (Option Value)
  | [] => []
  | none :: below => none :: overwrite value below
  | some _ :: below => some value :: below

theorem length_column (s : Scopes) (name : String) : (s.column name).length = s.depth := by
  rw [column, List.length_map, length_all]

theorem exists_column (s : Scopes) (name : String) : ∃ top below, s.column name = top :: below := by
  obtain ⟨a, outer, shape⟩ := s.exists_all
  exact ⟨a.get? name, outer.map (·.get? name), by rw [column, shape]; rfl⟩

theorem get?_eq_column (s : Scopes) (name : String) :
    s.get? name = (s.column name).findSome? id := by
  unfold get? column all
  rw [List.findSome?_map, List.findSome?_append]
  cases found : s.global.get? name <;> simp [found]

theorem scopes_eq_of_columns {first second : List Scope}
    (h : ∀ name, first.map (·.get? name) = second.map (·.get? name)) : first = second := by
  induction first generalizing second with
  | nil => exact (List.map_eq_nil_iff.mp (h "").symm).symm
  | cons a first ih =>
    cases second with
    | nil => exact absurd (h "") (List.cons_ne_nil _ _)
    | cons b second =>
      have heads : a = b := Scope.eq_of_get? fun name => (List.cons.inj (h name)).1
      rw [heads, ih fun name => (List.cons.inj (h name)).2]

theorem eq_of_column {s t : Scopes} (h : ∀ name, s.column name = t.column name) : s = t := by
  obtain ⟨inner, global⟩ := s
  obtain ⟨inner', global'⟩ := t
  obtain ⟨rfl, last⟩ := List.append_inj' (scopes_eq_of_columns h) rfl
  cases last
  rfl

/-! ### Single changes -/

theorem column_push (s : Scopes) (name : String) : s.push.column name = none :: s.column name := rfl

theorem column_pop (s : Scopes) (name : String) :
    s.pop.column name =
      if (s.column name).length = 1 then s.column name else (s.column name).tail := by
  obtain ⟨inner, global⟩ := s
  cases inner with
  | nil => rfl
  | cons a rest => simp [column, all, pop]

theorem column_pop_of_cons {s t : Scopes} {name : String} {top : Option Value}
    (h : t.column name = top :: s.column name) : t.pop.column name = s.column name := by
  obtain ⟨a, below, shape⟩ := s.exists_column name
  rw [column_pop, h, shape]
  rfl

theorem column_define (s : Scopes) (name : String) (value : Value) (other : String) :
    (s.define name value).column other =
      if other = name then some value :: (s.column other).tail else s.column other := by
  obtain ⟨inner, global⟩ := s
  cases inner with
  | nil =>
    simp only [define, column, all, List.nil_append, List.map_cons, List.map_nil, Scope.get?_insert]
    split <;> rfl
  | cons a rest =>
    simp only [define, column, all, List.cons_append, List.map_cons, Scope.get?_insert]
    split <;> rfl

theorem all_assign? (s : Scopes) (name : String) (value : Value) :
    (s.assign? name value).map all = rebind name value s.all := by
  obtain ⟨inner, global⟩ := s
  induction inner with
  | nil =>
    simp only [assign?, all, rebind, List.nil_append]
    split <;> rfl
  | cons scope rest ih =>
    have onward : rebind name value (rest ++ [global]) = _ := ih.symm
    by_cases bound : (scope.get? name).isSome = true
    · simp [assign?, all, rebind, bound]
    · simp only [assign?, all, List.cons_append, rebind, bound, Bool.false_eq_true,
        if_false, onward]
      cases rebind name value rest with
      | some found => rfl
      | none =>
        dsimp only [Option.map_none]
        split <;> rfl

theorem column_rebind {name : String} {value : Value} {scopes found : List Scope}
    (h : rebind name value scopes = some found) (other : String) :
    found.map (·.get? other) =
      if other = name then overwrite value (scopes.map (·.get? other))
      else scopes.map (·.get? other) := by
  induction scopes generalizing found with
  | nil => cases h
  | cons scope rest ih =>
    unfold rebind at h
    split at h
    · next bound =>
      obtain ⟨old, holds⟩ := Option.isSome_iff_exists.mp bound
      cases h
      rw [List.map_cons, List.map_cons, Scope.get?_insert]
      split
      · next same =>
        rw [same, holds]
        rfl
      · rfl
    · next miss =>
      obtain ⟨rest', onward, rfl⟩ := Option.map_eq_some_iff.mp h
      rw [List.map_cons, List.map_cons, ih onward]
      split
      · next same =>
        rw [same, Option.not_isSome_iff_eq_none.mp miss]
        rfl
      · rfl

theorem column_assign? {s t : Scopes} {name : String} {value : Value}
    (h : s.assign? name value = some t) (other : String) :
    t.column other =
      if other = name then overwrite value (s.column other) else s.column other := by
  apply column_rebind
  rw [← all_assign?, h]
  rfl

theorem column_assign?_of_ne {s t : Scopes} {name other : String} {value : Value}
    (h : s.assign? name value = some t) (ne : other ≠ name) : t.column other = s.column other := by
  rw [column_assign? h, if_neg ne]

end DaiScript.Scopes
