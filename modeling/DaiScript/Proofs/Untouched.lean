import DaiScript.Proofs.Columns

/-! What a statement leaves alone. A name that it does not write keeps its whole column. So does a
name that it writes only where a block of its own has declared the name before: from there on the
block's own scope binds the name, assignments stop at it or above it, and it is closed with the
block. -/
namespace DaiScript

open Evaluating Running

/-! ### Names that are not written -/

theorem append_subset_append {first second first' second' : List String} (h : first ⊆ first')
    (k : second ⊆ second') : first ++ second ⊆ first' ++ second' :=
  fun _ inside => List.mem_append.mpr ((List.mem_append.mp inside).imp (h ·) (k ·))

theorem Expr.targets_subset_names (e : Expr) : e.targets ⊆ e.names := by
  cases e with
  | name n p => exact List.Subset.refl _
  | _ => exact List.nil_subset _

mutual

theorem Expr.written_subset_names (e : Expr) : e.written ⊆ e.names := by
  cases e with
  | binary left op right p =>
    exact append_subset_append left.written_subset_names right.written_subset_names
  | unary op operand p => exact operand.written_subset_names
  | update op target before p =>
    exact List.append_subset.mpr ⟨target.targets_subset_names, target.written_subset_names⟩
  | assign target op value p =>
    apply append_subset_append _ value.written_subset_names
    exact List.append_subset.mpr ⟨target.targets_subset_names, target.written_subset_names⟩
  | call callee arguments p =>
    exact append_subset_append callee.written_subset_names
      (Expr.writtenAll_subset_names arguments)
  | literal value p => exact List.nil_subset _
  | name n p => exact List.nil_subset _
  | array items p => exact Expr.writtenAll_subset_names items

theorem Expr.writtenAll_subset_names (es : List Expr) : Expr.writtenAll es ⊆ Expr.namesAll es := by
  cases es with
  | nil => exact List.nil_subset _
  | cons e es =>
    exact append_subset_append e.written_subset_names (Expr.writtenAll_subset_names es)

end

mutual

theorem Stmt.written_subset_names (s : Stmt) : s.written ⊆ s.names := by
  cases s with
  | declare name value p =>
    cases value with
    | none => exact List.Subset.refl _
    | some e => exact List.cons_subset_cons name e.written_subset_names
  | expr e => exact e.written_subset_names
  | print arguments p => exact Expr.writtenAll_subset_names arguments
  | branch test consequent alternate =>
    apply append_subset_append _ (Stmt.writtenElse_subset_names alternate)
    exact append_subset_append test.written_subset_names consequent.written_subset_names
  | loop test body =>
    exact append_subset_append test.written_subset_names body.written_subset_names
  | block body => exact Stmt.writtenAll_subset_names body
  | leave p | next p => exact List.nil_subset _

theorem Stmt.writtenElse_subset_names (alternate : Option Stmt) :
    Stmt.writtenElse alternate ⊆ Stmt.namesElse alternate := by
  cases alternate with
  | none => exact List.nil_subset _
  | some s => exact s.written_subset_names

theorem Stmt.writtenAll_subset_names (body : List Stmt) :
    Stmt.writtenAll body ⊆ Stmt.namesAll body := by
  cases body with
  | nil => exact List.nil_subset _
  | cons s body =>
    exact append_subset_append s.written_subset_names (Stmt.writtenAll_subset_names body)

end

section

variable [Sink]

def Session.SameColumn (x : String) (s t : Session) : Prop := t.scopes.column x = s.scopes.column x

theorem frame_sameColumn (x : String) : Frame (Session.SameColumn x) (x ≠ ·) where
  refl _ := rfl
  trans h k := k.trans h
  store other value p s t ends := by
    obtain rfl | ⟨scopes, stored, rfl⟩ := cases_of_store ends
    · rfl
    · exact Scopes.column_assign?_of_ne stored other
  define other value s t ends := by
    cases ends
    exact (Scopes.column_define _ _ value x).trans (if_neg other)
  write text s t ends := congrArg (Scopes.column · x) (scopes_of_write ends)
  scope h s t ends := by
    obtain ⟨u, inside, rfl⟩ := exists_of_inScope ends
    exact Scopes.column_pop_of_cons (h inside)

theorem Stmt.keeps_of_notMem {x : String} {s : Stmt} (h : x ∉ s.written) (rounds : Nat) :
    Process.Keeps (Session.SameColumn x) (s.exec rounds) :=
  (frame_sameColumn x).exec rounds s fun _ hn same => h (same ▸ hn)

theorem Expr.keeps_of_notMem {x : String} {e : Expr} (h : x ∉ e.written) :
    Process.Keeps (Session.SameColumn x) (evaluate e.eval) :=
  (frame_sameColumn x).eval e fun _ hn same => h (same ▸ hn)

end

/-! ### Names that a block has declared -/

/-- Under so many scopes stands one that binds the name, above scopes that bind it like this. -/
def Scopes.Shielded (x : String) (below : List (Option Value)) (count : Nat) (s : Scopes) : Prop :=
  ∃ above value, above.length = count ∧ s.column x = above ++ some value :: below

def Session.Shields [Sink] (x : String) (below : List (Option Value)) (s t : Session) : Prop :=
  ∀ count, s.scopes.Shielded x below count → t.scopes.Shielded x below count

private theorem exists_overwrite (value old : Value) (above below : List (Option Value)) :
    ∃ above' new, above'.length = above.length ∧
      Scopes.overwrite value (above ++ some old :: below) = above' ++ some new :: below := by
  induction above with
  | nil => exact ⟨[], value, rfl, rfl⟩
  | cons top above ih =>
    cases top with
    | none =>
      obtain ⟨above', new, length, same⟩ := ih
      exact ⟨none :: above', new, congrArg (· + 1) length, congrArg (none :: ·) same⟩
    | some covered => exact ⟨some value :: above, old, rfl, rfl⟩

theorem Scopes.Shielded.assign? {x : String} {below : List (Option Value)} {count : Nat}
    {s t : Scopes} (h : s.Shielded x below count) {name : String} {value : Value}
    (stored : s.assign? name value = some t) : t.Shielded x below count := by
  obtain ⟨above, old, length, shape⟩ := h
  unfold Shielded
  rw [column_assign? stored, shape]
  split
  · obtain ⟨above', new, length', same⟩ := exists_overwrite value old above below
    exact ⟨above', new, length'.trans length, same⟩
  · exact ⟨above, old, length, rfl⟩

theorem Scopes.Shielded.define {x : String} {below : List (Option Value)} {count : Nat}
    {s : Scopes} (h : s.Shielded x below count) (name : String) (value : Value) :
    (s.define name value).Shielded x below count := by
  obtain ⟨above, old, length, shape⟩ := h
  unfold Shielded
  rw [column_define, shape]
  split
  · cases above with
    | nil => exact ⟨[], value, length, rfl⟩
    | cons top above => exact ⟨some value :: above, old, length, rfl⟩
  · exact ⟨above, old, length, rfl⟩

theorem Scopes.Shielded.push {x : String} {below : List (Option Value)} {count : Nat} {s : Scopes}
    (h : s.Shielded x below count) : s.push.Shielded x below (count + 1) := by
  obtain ⟨above, old, length, shape⟩ := h
  exact ⟨none :: above, old, congrArg (· + 1) length, congrArg (none :: ·) shape⟩

theorem Scopes.Shielded.pop {x : String} {below : List (Option Value)} {count : Nat} {s : Scopes}
    (h : s.Shielded x below (count + 1)) : s.pop.Shielded x below count := by
  obtain ⟨above, old, length, shape⟩ := h
  cases above with
  | nil => cases length
  | cons top above =>
    refine ⟨above, old, Nat.succ.inj length, ?_⟩
    rw [column_pop, shape, if_neg (by simp)]
    rfl

private theorem frame_shields [Sink] (x : String) (below : List (Option Value)) :
    Frame (Session.Shields x below) fun _ => True where
  refl _ _ h := h
  trans h k count shielded := k count (h count shielded)
  store _ value p s t ends count shielded := by
    obtain rfl | ⟨scopes, stored, rfl⟩ := cases_of_store ends
    · exact shielded
    · exact shielded.assign? stored
  define _ value s t ends count shielded := by
    cases ends
    exact shielded.define _ value
  write text s t ends count shielded := by
    rw [scopes_of_write ends]
    exact shielded
  scope h s t ends count shielded := by
    obtain ⟨u, inside, rfl⟩ := exists_of_inScope ends
    exact (h inside (count + 1) shielded.push).pop

/-- The statement declares the name, and computes its first value without writing it. -/
def Stmt.Introduces (x : String) : Stmt → Prop
  | .declare name value _ => name = x ∧ ∀ e ∈ value, x ∉ e.written
  | .expr _ | .print _ _ | .branch _ _ _ | .loop _ _ | .block _ | .leave _ | .next _ => False

mutual

/-- All that writes the name in the statement stands in the list of a block of it, either as a
statement of the list that introduces the name or in a statement behind such a one. -/
def Stmt.Shadows (x : String) : Stmt → Prop
  | .declare name value _ => name ≠ x ∧ ∀ e ∈ value, x ∉ e.written
  | .expr e => x ∉ e.written
  | .print arguments _ => x ∉ Expr.writtenAll arguments
  | .branch test consequent alternate =>
    x ∉ test.written ∧ consequent.Shadows x ∧ Stmt.ShadowsElse x alternate
  | .loop test body => x ∉ test.written ∧ body.Shadows x
  | .block body => Stmt.ShadowsAll x body
  | .leave _ | .next _ => True

def Stmt.ShadowsElse (x : String) : Option Stmt → Prop
  | none => True
  | some s => s.Shadows x

def Stmt.ShadowsAll (x : String) : List Stmt → Prop
  | [] => True
  | s :: body => s.Introduces x ∨ s.Shadows x ∧ Stmt.ShadowsAll x body

end

section

variable [Sink]

def Session.SameBelow (x : String) (s t : Session) : Prop :=
  ∀ top below, s.scopes.column x = top :: below → ∃ top', t.scopes.column x = top' :: below

theorem lasting_sameBelow (x : String) : Lasting (Session.SameBelow x) where
  refl _ top _ shape := ⟨top, shape⟩
  trans h k top below shape := by
    obtain ⟨top', shape'⟩ := h top below shape
    exact k top' below shape'

theorem Session.SameColumn.below {x : String} {s t : Session} (h : s.SameColumn x t) :
    s.SameBelow x t :=
  fun top _ shape => ⟨top, Eq.trans h shape⟩

theorem Process.Keeps.below {x : String} {run : Running α}
    (h : Process.Keeps (Session.SameColumn x) run) : Process.Keeps (Session.SameBelow x) run :=
  fun _ _ ends => (h ends).below

theorem keeps_define_execAll (x : String) (rounds : Nat) (value : Value) (body : List Stmt) :
    Process.Keeps (Session.SameBelow x)
      (Running.define x value >>= fun _ => Stmt.execAll rounds value body) := by
  intro s t ends top below shape
  -- The new binding is the shield: the column below it is fixed before the statements start.
  have bound : (s.scopes.define x value).Shielded x below 0 := by
    refine ⟨[], value, rfl, ?_⟩
    rw [Scopes.column_define, if_pos rfl, shape]
    rfl
  have shields := (frame_shields x below).execAll rounds body (fun _ _ => trivial) value
  obtain ⟨above, value', length, shape'⟩ := shields ends 0 bound
  cases List.eq_nil_of_length_eq_zero length
  exact ⟨some value', shape'⟩

theorem Stmt.Introduces.keeps {x : String} {s : Stmt} (h : s.Introduces x) (rounds : Nat)
    (value : Value) (body : List Stmt) :
    Process.Keeps (Session.SameBelow x) (Stmt.execAll rounds value (s :: body)) := by
  cases s with
  | declare name initial p =>
    obtain ⟨rfl, unwritten⟩ := h
    cases initial with
    | none =>
      rw [Stmt.execAll, Stmt.exec_declare_none]
      simp only [bind_assoc, pure_bind]
      exact keeps_define_execAll name rounds .null body
    | some e =>
      rw [Stmt.execAll_declare]
      apply (Expr.keeps_of_notMem (unwritten e rfl)).below.bind (lasting_sameBelow name)
      intro value'
      exact keeps_define_execAll name rounds value' body
  | expr | print | branch | loop | block | leave | next => exact h.elim

mutual

theorem Stmt.Shadows.keeps {x : String} (rounds : Nat) (s : Stmt) (h : s.Shadows x) :
    Process.Keeps (Session.SameColumn x) (s.exec rounds) := by
  have F := frame_sameColumn x
  cases s with
  | declare name value p =>
    obtain ⟨other, unwritten⟩ := h
    apply Stmt.keeps_of_notMem
    cases value with
    | none => simpa [Stmt.written] using other.symm
    | some e => simpa [Stmt.written] using ⟨other.symm, unwritten e rfl⟩
  | expr e => exact Stmt.keeps_of_notMem (s := .expr e) h rounds
  | print arguments p => exact Stmt.keeps_of_notMem (s := .print arguments p) h rounds
  | branch test consequent alternate =>
    obtain ⟨unwritten, first, second⟩ := h
    rw [Stmt.exec_branch]
    apply (Expr.keeps_of_notMem unwritten).bind F.toLasting
    intro holds
    split
    · exact Stmt.Shadows.keeps rounds consequent first
    · cases alternate with
      | none => exact .pure F.toLasting _
      | some s => exact Stmt.Shadows.keeps rounds s second
  | loop test body =>
    rw [Stmt.exec]
    exact F.repeatWhile (Expr.keeps_of_notMem h.1) (Stmt.Shadows.keeps rounds body h.2) rounds _
  | block body =>
    rw [Stmt.exec]
    intro s t ends
    obtain ⟨u, inside, rfl⟩ := exists_of_inScope ends
    obtain ⟨top, shape⟩ := Stmt.ShadowsAll.keeps rounds body h .null inside none _ rfl
    exact Scopes.column_pop_of_cons shape
  | leave p | next p =>
    rw [Stmt.exec]
    exact .pure F.toLasting _

theorem Stmt.ShadowsAll.keeps {x : String} (rounds : Nat) (body : List Stmt)
    (h : Stmt.ShadowsAll x body) (value : Value) :
    Process.Keeps (Session.SameBelow x) (Stmt.execAll rounds value body) := by
  cases body with
  | nil => exact .pure (lasting_sameBelow x) _
  | cons s body =>
    obtain introduces | ⟨first, rest⟩ := h
    · exact introduces.keeps rounds value body
    · rw [Stmt.execAll]
      apply (Stmt.Shadows.keeps rounds s first).below.bind (lasting_sameBelow x)
      intro flow
      cases flow with
      | normal value => exact Stmt.ShadowsAll.keeps rounds body rest value
      | leave p => exact .pure (lasting_sameBelow x) _
      | next p => exact .pure (lasting_sameBelow x) _

end

/-- However a statement ends, each scope that was live binds a name as before, to the same value or
not at all, if the statement does not write the name, or writes it only where a block of its own has
declared it. -/
theorem Stmt.column_of_exec {x : String} {statement : Stmt}
    (h : x ∉ statement.written ∨ statement.Shadows x) {rounds : Nat} {s t : Session}
    (ends : (statement.exec rounds s).state? = some t) : t.scopes.column x = s.scopes.column x := by
  obtain unwritten | shadows := h
  · exact Stmt.keeps_of_notMem unwritten rounds ends
  · exact Stmt.Shadows.keeps rounds statement shadows ends

end

open scoped Buffer

theorem Stmt.column_of_exec_shadowed :
    let name (n : String) : Expr := .name n .start
    let write (n : String) (e : Expr) : Stmt := .expr (.assign (name n) .assign e .start)
    let truth (b : Bool) : Expr := .literal (.bool b) .start
    let statement : Stmt := .block
      [write "y" (truth false), .declare "x" (some (name "x")) .start,
        .loop (name "x") (write "x" (truth false)), .block [write "x" (name "z")]]
    let scopes := (Scopes.initial.define "x" (.bool true)).define "y" (.bool true)
    let s : Session := ⟨scopes, Buffer.empty⟩
    "x" ∈ statement.written ∧ statement.Shadows "x" ∧
      ∃ t, statement.exec 2 s = .failed (.broken (.undefined "z") (some .start)) t ∧
        s.scopes.column "x" = [some (.bool true)] ∧ t.scopes.column "x" = [some (.bool true)] ∧
        t.scopes.column "y" = [some (.bool false)] := by
  intro name write truth statement scopes s
  have shadows : statement.Shadows "x" := by
    simp [statement, write, name, truth, Stmt.Shadows, Stmt.ShadowsAll, Stmt.Introduces,
      Expr.written, Expr.targets]
  have ends : (statement.exec 2 s).state? = some _ := rfl
  exact ⟨by decide, shadows, _, rfl, rfl, Stmt.column_of_exec (.inr shadows) ends, rfl⟩

end DaiScript
