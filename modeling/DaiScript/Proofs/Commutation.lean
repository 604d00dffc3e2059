import DaiScript.Proofs.Untouched

/-! Statements that do not concern each other may change places. A statement changes only the names
that it writes, and what it does depends only on the names that occur in it and, if it prints, on
the sink. So neither of two independent statements notices whether the other has run, as long as no
more than one of them prints. -/
namespace DaiScript

open Evaluating Running

/-! ### Output -/

mutual

def Stmt.prints : Stmt → Bool
  | .print _ _ => true
  | .branch _ consequent alternate => consequent.prints || Stmt.printsElse alternate
  | .loop _ body => body.prints
  | .block body => Stmt.printsAny body
  | .declare _ _ _ | .expr _ | .leave _ | .next _ => false

def Stmt.printsElse : Option Stmt → Bool
  | none => false
  | some s => s.prints

def Stmt.printsAny : List Stmt → Bool
  | [] => false
  | s :: body => s.prints || Stmt.printsAny body

end

/-- Another sink may be put in its place before the process or after it. -/
def Running.IgnoresSink [Sink] (run : Running α) : Prop :=
  ∀ sink : Sink.State, Process.Commutes (fun s => { s with sink }) run

section

variable [Sink]

namespace Running.IgnoresSink

theorem pure (a : α) : IgnoresSink (Pure.pure a) := fun _ => Process.Commutes.pure a

theorem endless : IgnoresSink (Process.endless : Running α) := fun _ => Process.Commutes.endless

theorem bind {run : Running α} {next : α → Running β} (h : IgnoresSink run)
    (k : ∀ a, IgnoresSink (next a)) : IgnoresSink (run >>= next) :=
  fun sink => Process.Commutes.bind (h sink) fun a => k a sink

theorem evaluate (x : Evaluating α) : IgnoresSink (evaluate x) := by
  intro sink s
  unfold Running.evaluate
  dsimp only
  cases x s.scopes <;> rfl

theorem define (name : String) (value : Value) : IgnoresSink (Running.define name value) :=
  fun _ _ => rfl

theorem inScope {run : Running α} (h : IgnoresSink run) : IgnoresSink (inScope run) := by
  intro sink s
  have inside := h sink { s with scopes := s.scopes.push }
  unfold Running.inScope
  dsimp only at inside ⊢
  rw [inside]
  cases run { s with scopes := s.scopes.push } <;> rfl

theorem repeatWhile {test : Running Value} {body : Running Flow} (h : IgnoresSink test)
    (k : IgnoresSink body) (rounds : Nat) (value : Value) :
    IgnoresSink (repeatWhile test body rounds value) := by
  induction rounds generalizing value with
  | zero => exact endless
  | succ rounds ih =>
    unfold Running.repeatWhile
    apply h.bind
    intro holds
    split
    · apply k.bind
      intro flow
      cases flow with
      | normal value => exact ih value
      | next p => exact ih value
      | leave p => exact pure _
    · exact pure _

theorem sink_eq {run : Running α} (h : IgnoresSink run) {s t : Session} {a : α}
    (ends : run s = .done a t) : t.sink = s.sink := by
  have same : run s = (run s).mapState fun t => { t with sink := s.sink } := h s.sink s
  rw [ends] at same
  have unchanged : t = { t with sink := s.sink } := (Outcome.done.inj same).2
  rw [unchanged]

end Running.IgnoresSink

mutual

theorem Stmt.ignoresSink_exec (rounds : Nat) (s : Stmt) (silent : s.prints = false) :
    IgnoresSink (s.exec rounds) := by
  cases s with
  | declare name value p =>
    cases value with
    | none =>
      rw [Stmt.exec_declare_none]
      exact (IgnoresSink.define name .null).bind fun _ => .pure _
    | some e =>
      rw [Stmt.exec_declare_some]
      apply (IgnoresSink.evaluate e.eval).bind
      intro value
      exact (IgnoresSink.define name value).bind fun _ => .pure _
  | expr e =>
    rw [Stmt.exec]
    exact (IgnoresSink.evaluate e.eval).bind fun _ => .pure _
  | print arguments p => cases silent
  | branch test consequent alternate =>
    rw [Stmt.prints, Bool.or_eq_false_iff] at silent
    rw [Stmt.exec_branch]
    apply (IgnoresSink.evaluate test.eval).bind
    intro holds
    split
    · exact Stmt.ignoresSink_exec rounds consequent silent.1
    · cases alternate with
      | none => exact .pure _
      | some s => exact Stmt.ignoresSink_exec rounds s silent.2
  | loop test body =>
    rw [Stmt.exec]
    exact (IgnoresSink.evaluate test.eval).repeatWhile
      (Stmt.ignoresSink_exec rounds body silent) rounds .null
  | block body =>
    rw [Stmt.exec]
    exact (Stmt.ignoresSink_execAll rounds body silent .null).inScope
  | leave p | next p =>
    rw [Stmt.exec]
    exact .pure _

theorem Stmt.ignoresSink_execAll (rounds : Nat) (body : List Stmt)
    (silent : Stmt.printsAny body = false) (value : Value) :
    IgnoresSink (Stmt.execAll rounds value body) := by
  cases body with
  | nil => exact .pure _
  | cons s body =>
    rw [Stmt.printsAny, Bool.or_eq_false_iff] at silent
    rw [Stmt.execAll]
    apply (Stmt.ignoresSink_exec rounds s silent.1).bind
    intro flow
    cases flow with
    | normal value => exact Stmt.ignoresSink_execAll rounds body silent.2 value
    | leave p => exact .pure _
    | next p => exact .pure _

end

end

/-! ### What a statement depends on -/

def Simulation.agreeing (known : String → Prop) : Simulation where
  names := id
  places := id
  known := known
  scopes _ s t := ∀ n, known n → t.column n = s.column n
  get {_ s t name} same hn := by
    rw [id, Scopes.get?_eq_column, Scopes.get?_eq_column, same name hn]
  unbound _ _ _ := rfl
  assign {_ s t name value s'} same hn stored := by
    have bound : (t.assign? name value).isSome = true := by
      rw [Scopes.isSome_assign?, Scopes.get?_eq_column, same name hn, ← Scopes.get?_eq_column,
        ← Scopes.isSome_assign? s name value, stored]
      rfl
    obtain ⟨t', stored'⟩ := Option.isSome_iff_exists.mp bound
    refine ⟨t', stored', fun n known => ?_⟩
    rw [Scopes.column_assign? stored', Scopes.column_assign? stored, same n known]
  define same _ n known := by
    rw [id, Scopes.column_define, Scopes.column_define, same n known]
  push same n known := by
    rw [Scopes.column_push, Scopes.column_push, same n known]
  pop same n known := by
    rw [Scopes.column_pop, Scopes.column_pop, same n known]

section

variable [Sink] {statement : Stmt} {rounds : Nat} {flow : Flow} {s t s' : Session}

/-- In scopes that agree on its names and with the same sink, a statement ends in the same way, and
leaves such scopes and such a sink. -/
theorem Stmt.exec_agreeing (run : statement.exec rounds s = .done flow t) (same : s'.sink = s.sink)
    (agree : ∀ n ∈ statement.names, s'.scopes.column n = s.scopes.column n) :
    ∃ t', statement.exec rounds s' = .done flow t' ∧
      (∀ n ∈ statement.names, t'.scopes.column n = t.scopes.column n) ∧ t'.sink = t.sink := by
  let S := Simulation.agreeing (· ∈ statement.names)
  have related : (S.inside (fun _ => False) 0).state s s' := ⟨agree, same⟩
  have matched : Outcome.Matches (S.inside (fun _ => False) 0) S.flows (statement.exec rounds s)
      ((statement.transport id id).exec rounds s') :=
    Simulation.exec_matches statement (fun _ inside => inside) (.refl rounds) related
  rw [Stmt.transport_id] at matched
  obtain ⟨flow', t', run', image, agree', same'⟩ := matched.of_done run
  have unmoved : flow' = flow := image.trans flow.moved_id
  rw [unmoved] at run'
  exact ⟨t', run', agree', same'⟩

theorem Stmt.exec_agreeing_of_silent (silent : statement.prints = false)
    (run : statement.exec rounds s = .done flow t)
    (agree : ∀ n ∈ statement.names, s'.scopes.column n = s.scopes.column n) :
    ∃ t', statement.exec rounds s' = .done flow t' ∧
      (∀ n ∈ statement.names, t'.scopes.column n = t.scopes.column n) ∧ t'.sink = s'.sink := by
  have moved : statement.exec rounds { s with sink := s'.sink } =
      .done flow { t with sink := s'.sink } := by
    rw [statement.ignoresSink_exec rounds silent s'.sink s, run]
    rfl
  exact exec_agreeing moved rfl agree

theorem Stmt.columns_of_exec (run : statement.exec rounds s = .done flow t) :
    ∀ n ∉ statement.written, t.scopes.column n = s.scopes.column n := by
  intro n unwritten
  exact Stmt.keeps_of_notMem unwritten rounds (by rw [run]; rfl)

end

/-! ### Changing places -/

/-- Neither statement writes a name that occurs in the other, and no more than one of them
prints. -/
structure Stmt.Independent (a b : Stmt) : Prop where
  left : ∀ n ∈ a.written, n ∉ b.names
  right : ∀ n ∈ b.written, n ∉ a.names
  quiet : a.prints = false ∨ b.prints = false

section

variable [Sink] {a b : Stmt} {rounds rounds' : Nat} {x y : Value} {s t u : Session}

private theorem Session.eq_of_columns
    (columns : ∀ n, s.scopes.column n = t.scopes.column n) (sink : s.sink = t.sink) : s = t := by
  cases s
  cases t
  rw [Session.mk.injEq]
  exact ⟨Scopes.eq_of_column columns, sink⟩

private theorem Stmt.Independent.exists_swapped (h : Independent a b)
    (first : a.exec rounds s = .done (.normal x) t)
    (second : b.exec rounds' t = .done (.normal y) u) :
    ∃ t' u', b.exec rounds' s = .done (.normal y) t' ∧ a.exec rounds t' = .done (.normal x) u' ∧
      (∀ n ∈ b.names, t'.scopes.column n = u.scopes.column n) ∧
      (∀ n ∈ a.names, u'.scopes.column n = t.scopes.column n) ∧ u'.sink = u.sink := by
  -- The second statement does not notice that the first has not run yet.
  have early : ∀ n ∈ b.names, s.scopes.column n = t.scopes.column n :=
    fun n hn => (columns_of_exec first n fun written => h.left n written hn).symm
  have late : ∀ {t'}, b.exec rounds' s = .done (.normal y) t' →
      ∀ n ∈ a.names, t'.scopes.column n = s.scopes.column n :=
    fun second' n hn => columns_of_exec second' n fun written => h.right n written hn
  obtain silent | silent := h.quiet
  · have untouched := (a.ignoresSink_exec rounds silent).sink_eq first
    obtain ⟨t', second', agreeB, sinkB⟩ := exec_agreeing second untouched.symm early
    obtain ⟨u', first', agreeA, sinkA⟩ := exec_agreeing_of_silent silent first (late second')
    exact ⟨t', u', second', first', agreeB, agreeA, sinkA.trans sinkB⟩
  · have untouched := (b.ignoresSink_exec rounds' silent).sink_eq second
    obtain ⟨t', second', agreeB, sinkB⟩ := exec_agreeing_of_silent silent second early
    obtain ⟨u', first', agreeA, sinkA⟩ := exec_agreeing first sinkB (late second')
    exact ⟨t', u', second', first', agreeB, agreeA, sinkA.trans untouched.symm⟩

end

/-- Independent statements may change places: if one ends normally and then the other does, so they
do the other way round, each with the same value as before, and the session is the same in the
end. -/
theorem Stmt.exec_swap [Sink] {a b : Stmt} (h : Independent a b) {rounds rounds' : Nat}
    {x y : Value} {s t u : Session} (first : a.exec rounds s = .done (.normal x) t)
    (second : b.exec rounds' t = .done (.normal y) u) :
    ∃ t', b.exec rounds' s = .done (.normal y) t' ∧ a.exec rounds t' = .done (.normal x) u := by
  obtain ⟨t', u', second', first', agreeB, agreeA, sink⟩ := h.exists_swapped first second
  have columns : ∀ n, u'.scopes.column n = u.scopes.column n := by
    intro n
    by_cases inA : n ∈ a.names
    · rw [agreeA n inA, columns_of_exec second n fun written => h.right n written inA]
    · have unwritten : n ∉ a.written := fun written => inA (a.written_subset_names written)
      rw [columns_of_exec first' n unwritten]
      by_cases inB : n ∈ b.names
      · exact agreeB n inB
      · have unwritten' : n ∉ b.written := fun written => inB (b.written_subset_names written)
        rw [columns_of_exec second' n unwritten', columns_of_exec second n unwritten',
          columns_of_exec first n unwritten]
  have same : u' = u := Session.eq_of_columns columns sink
  exact ⟨t', second', same ▸ first'⟩

open scoped Buffer

theorem Stmt.exec_swap_blocks :
    let name (n : String) : Expr := .name n .start
    let assign (n : String) : Expr :=
      .assign (name n) .assign (.literal (.bool false) .start) .start
    let a : Stmt := .block
      [.declare "z" (some (name "x")) .start, .loop (name "x") (.expr (assign "x")),
        .print [name "z", name "x"] .start]
    let b : Stmt := .declare "w" (some (assign "y")) .start
    let scopes := (Scopes.initial.define "x" (.bool true)).define "y" (.bool true)
    let s : Session := ⟨scopes, Buffer.empty⟩
    Independent a b ∧
      ∃ t u, a.exec 2 s = .done (.normal .null) t ∧ b.exec 2 t = .done (.normal (.bool false)) u ∧
        u.sink.printed = "thik galat\n" ∧
        ∃ t', b.exec 2 s = .done (.normal (.bool false)) t' ∧
          a.exec 2 t' = .done (.normal .null) u := by
  intro name assign a b scopes s
  have independent : Independent a b := ⟨by decide, by decide, .inr rfl⟩
  refine ⟨independent, _, _, rfl, rfl, rfl, ?_⟩
  exact exec_swap independent rfl rfl

end DaiScript
