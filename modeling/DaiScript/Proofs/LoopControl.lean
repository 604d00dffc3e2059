import DaiScript.Proofs.Origins

/-! Loop control stays in its loop. The nearest loop around a signal takes it, so a run can only end
with one that stands outside every loop, and never does if each signal of the program stands in
one. -/
namespace DaiScript

namespace Stmt

/-- The inner statement stands in the outer one, and in no body of a loop of it. -/
inductive Exposes : (outer inner : Stmt) → Prop
  | self {s : Stmt} : Exposes s s
  | consequent {test : Expr} {s inner : Stmt} {alternate : Option Stmt} :
      Exposes s inner → Exposes (.branch test s alternate) inner
  | alternate {test : Expr} {consequent s inner : Stmt} :
      Exposes s inner → Exposes (.branch test consequent (some s)) inner
  | block {body : List Stmt} {s inner : Stmt} :
      s ∈ body → Exposes s inner → Exposes (.block body) inner

mutual

/-- Each signal in the statement stands in the body of a loop; `looped` tells whether the statement
itself does. -/
def sheltered (looped : Bool) : Stmt → Bool
  | .leave _ | .next _ => looped
  | .branch _ consequent alternate =>
    consequent.sheltered looped && shelteredElse looped alternate
  | .loop _ body => body.sheltered true
  | .block body => shelteredAll looped body
  | .declare _ _ _ | .expr _ | .print _ _ => true

def shelteredElse (looped : Bool) : Option Stmt → Bool
  | none => true
  | some s => s.sheltered looped

def shelteredAll (looped : Bool) : List Stmt → Bool
  | [] => true
  | s :: body => s.sheltered looped && shelteredAll looped body

end

end Stmt

def Flow.sender? : Flow → Option Stmt
  | .normal _ => none
  | .leave p => some (.leave p)
  | .next p => some (.next p)

namespace Stmt

mutual

theorem exposes_of_mem_signals {flow : Flow} (s : Stmt) (h : flow ∈ s.signals) :
    ∃ inner, flow.sender? = some inner ∧ s.Exposes inner := by
  cases s with
  | branch test consequent alternate =>
    rw [signals, List.mem_append] at h
    obtain first | second := h
    · obtain ⟨inner, sent, exposed⟩ := exposes_of_mem_signals consequent first
      exact ⟨inner, sent, .consequent exposed⟩
    · cases alternate with
      | none => cases second
      | some s =>
        obtain ⟨inner, sent, exposed⟩ := exposes_of_mem_signals s second
        exact ⟨inner, sent, .alternate exposed⟩
  | block body =>
    obtain ⟨s, inside, inner, sent, exposed⟩ := exposes_of_mem_signalsAll body h
    exact ⟨inner, sent, .block inside exposed⟩
  | leave p | next p =>
    rw [signals, List.mem_singleton] at h
    subst h
    exact ⟨_, rfl, .self⟩
  | declare | expr | print | loop => cases h

theorem exposes_of_mem_signalsAll {flow : Flow} (body : List Stmt) (h : flow ∈ signalsAll body) :
    ∃ s ∈ body, ∃ inner, flow.sender? = some inner ∧ s.Exposes inner := by
  cases body with
  | nil => cases h
  | cons s body =>
    rw [signalsAll, List.mem_append] at h
    obtain first | second := h
    · exact ⟨s, List.mem_cons_self, exposes_of_mem_signals s first⟩
    · obtain ⟨s', inside, exposed⟩ := exposes_of_mem_signalsAll body second
      exact ⟨s', List.mem_cons_of_mem s inside, exposed⟩

end

theorem sheltered_of_mem {looped : Bool} {body : List Stmt} (h : shelteredAll looped body = true)
    {s : Stmt} (inside : s ∈ body) : s.sheltered looped = true := by
  induction body with
  | nil => cases inside
  | cons s' body ih =>
    rw [shelteredAll, Bool.and_eq_true] at h
    cases inside with
    | head => exact h.1
    | tail _ later => exact ih h.2 later

theorem Exposes.sheltered {looped : Bool} {s inner : Stmt} (h : s.Exposes inner)
    (shelter : s.sheltered looped = true) : inner.sheltered looped = true := by
  induction h with
  | self => exact shelter
  | consequent _ ih =>
    rw [Stmt.sheltered, Bool.and_eq_true] at shelter
    exact ih shelter.1
  | alternate _ ih =>
    rw [Stmt.sheltered, Bool.and_eq_true] at shelter
    exact ih shelter.2
  | block inside _ ih => exact ih (sheltered_of_mem shelter inside)

theorem exposes_of_exec [Sink] {rounds : Nat} {statement : Stmt} {s t : Session} {flow : Flow}
    (h : statement.exec rounds s = .done flow t) :
    (∃ value, flow = .normal value) ∨
      ∃ inner, flow.sender? = some inner ∧ statement.Exposes inner :=
  ((statement.yields_exec rounds).of_done h).imp_right (exposes_of_mem_signals statement)

end Stmt

private theorem Expr.Raises.ne_outsideLoop {e : Expr} {reason : Reason} {p : Position}
    (h : e.Raises reason p) (keyword : String) : reason ≠ .outsideLoop keyword := by
  cases h <;> nofun

theorem Program.exposes_of_outsideLoop [Sink] {rounds : Nat} {program : Program} {s t : Session}
    {keyword : String} {position : Option Position}
    (h : program.exec rounds s = .failed (.broken (.outsideLoop keyword) position) t) :
    ∃ statement ∈ program, ∃ p, position = some p ∧
      (keyword = Keyword.vaiVayoRokki.spelling ∧ statement.Exposes (.leave p) ∨
        keyword = Keyword.aghiBadhVai.spelling ∧ statement.Exposes (.next p)) := by
  obtain (⟨node, -, reason, p, same, raises⟩ | ⟨message, same⟩) | ⟨flow, signal, stray⟩ :=
    (program.yields_exec rounds).of_failed h
  · cases same
    exact absurd rfl (raises.ne_outsideLoop keyword)
  · cases same
  · obtain ⟨statement, inside, inner, sent, exposed⟩ :=
      Stmt.exposes_of_mem_signalsAll program signal
    refine ⟨statement, inside, ?_⟩
    cases flow with
    | normal value => cases stray
    | leave p =>
      cases stray
      cases sent
      exact ⟨p, rfl, .inl ⟨rfl, exposed⟩⟩
    | next p =>
      cases stray
      cases sent
      exact ⟨p, rfl, .inr ⟨rfl, exposed⟩⟩

/-- Loops end normally, statements end only with loop control that they expose, a program fails only
for loop control that stands outside every loop, and not at all if each signal stands in one. -/
theorem loop_control_contained [Sink] (rounds : Nat) :
    (∀ (test : Expr) (body : Stmt) (s t : Session) (flow : Flow),
      (Stmt.loop test body).exec rounds s = .done flow t → ∃ value, flow = .normal value) ∧
    (∀ (statement : Stmt) (s t : Session) (p : Position),
      (statement.exec rounds s = .done (.leave p) t → statement.Exposes (.leave p)) ∧
      (statement.exec rounds s = .done (.next p) t → statement.Exposes (.next p))) ∧
    ∀ (program : Program) (s t : Session) (keyword : String) (position : Option Position),
      (program.exec rounds s = .failed (.broken (.outsideLoop keyword) position) t →
        ∃ statement ∈ program, ∃ p, position = some p ∧
          (keyword = Keyword.vaiVayoRokki.spelling ∧ statement.Exposes (.leave p) ∨
            keyword = Keyword.aghiBadhVai.spelling ∧ statement.Exposes (.next p))) ∧
      (Stmt.shelteredAll false program = true →
        program.exec rounds s ≠ .failed (.broken (.outsideLoop keyword) position) t) := by
  refine ⟨?_, ?_, ?_⟩
  · intro test body s t flow run
    obtain normal | signal := ((Stmt.loop test body).yields_exec rounds).of_done run
    · exact normal
    · cases signal
  · intro statement s t p
    constructor <;> intro run <;>
      obtain ⟨value, impossible⟩ | ⟨inner, sent, exposed⟩ := Stmt.exposes_of_exec run
    · cases impossible
    · cases sent
      exact exposed
    · cases impossible
    · cases sent
      exact exposed
  · intro program s t keyword position
    refine ⟨Program.exposes_of_outsideLoop, ?_⟩
    intro sheltered fails
    obtain ⟨statement, inside, p, -, ⟨-, exposed⟩ | ⟨-, exposed⟩⟩ :=
      Program.exposes_of_outsideLoop fails
    · cases exposed.sheltered (Stmt.sheltered_of_mem sheltered inside)
    · cases exposed.sheltered (Stmt.sheltered_of_mem sheltered inside)

open scoped Buffer

theorem loop_control_contained_stray :
    let p : Position := .start
    let q : Position := ⟨1, 2, 1⟩
    let always : Expr := .literal (.bool true) p
    let loop : Stmt := .loop always (.block [.branch always (.block [.leave p]) none])
    let stray : Stmt := .branch always (.block [.next q]) none
    let fault : Fault := .broken (.outsideLoop Keyword.aghiBadhVai.spelling) (some q)
    let s : Session := .initial Buffer.empty
    (∃ t, stray.exec 1 s = .done (.next q) t) ∧ stray.Exposes (.next q) ∧
      (∃ t, Program.exec 1 [loop, stray] s = .failed fault t) ∧
      (∃ statement ∈ [loop, stray], statement.Exposes (.next q)) ∧
      Stmt.shelteredAll false [loop] = true ∧
      ∀ s t, Program.exec 1 [loop] s ≠ .failed fault t := by
  intro p q always loop stray fault s
  obtain ⟨-, statements, programs⟩ := loop_control_contained 1
  have ends : stray.exec 1 s = .done (.next q) s := rfl
  have fails : Program.exec 1 [loop, stray] s = .failed fault s := rfl
  refine ⟨⟨_, ends⟩, (statements stray _ _ q).2 ends, ⟨_, fails⟩, ?_, rfl, ?_⟩
  · obtain ⟨statement, inside, place, same, ⟨impossible, -⟩ | ⟨-, exposed⟩⟩ :=
      (programs [loop, stray] _ _ _ _).1 fails
    · exact absurd impossible (by decide)
    · cases same
      exact ⟨statement, inside, exposed⟩
  · intro s t
    exact (programs [loop] s t _ _).2 rfl

end DaiScript
