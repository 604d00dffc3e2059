import DaiScript.Proofs.Upkeep

/-! The test of a loop may stand in its body. A loop that always goes on and leaves where the test
does not hold does what the loop with the test does, round by round. The test is then evaluated in
the scope of the body, which is still empty; an expression neither sees such a scope nor leaves
anything in it. -/
namespace DaiScript

open Evaluating Running

/-! ### Under an empty scope -/

def Session.pushed [Sink] (s : Session) : Session := { s with scopes := s.scopes.push }

theorem Scopes.get?_push (s : Scopes) (name : String) : s.push.get? name = s.get? name := rfl

theorem Scopes.assign?_push (s : Scopes) (name : String) (value : Value) :
    s.push.assign? name value = (s.assign? name value).map push := by
  have inner : rebind name value s.push.inner =
      (rebind name value s.inner).map (Scope.empty :: ·) := rfl
  unfold assign?
  rw [inner]
  cases rebind name value s.inner with
  | some found => rfl
  | none =>
    change (if (s.global.get? name).isSome then _ else _) = _
    dsimp only
    split <;> rfl

section

variable [Sink]

private theorem compositional_pushed :
    Compositional (fun run => Process.Commutes Session.pushed run) fun _ => True where
  pure := .pure
  fail := .fail
  bind := .bind
  fetch name p s := by
    unfold evaluate Evaluating.fetch Scopes.lookup Session.pushed
    rw [Scopes.get?_push]
    cases s.scopes.get? name <;> rfl
  store {name} _ value p s := by
    unfold evaluate Evaluating.store Scopes.assign Session.pushed
    rw [Scopes.assign?_push]
    cases s.scopes.assign? name value <;> rfl

namespace Running

private theorem inScope_evaluate (e : Expr) (next : Value → Running α) :
    inScope (evaluate e.eval >>= next) = evaluate e.eval >>= fun value => inScope (next value) := by
  funext s
  have same : evaluate e.eval s.pushed = _ := compositional_pushed.eval e (fun _ _ => trivial) s
  rw [Process.bind_apply]
  unfold inScope
  change ((evaluate e.eval >>= next) s.pushed).mapState _ = _
  rw [Process.bind_apply, same]
  cases evaluate e.eval s <;> rfl

/-! ### Loops -/

/-- Where the test is always passed and the body begins with one of its own, leaving if that fails,
the loop has the test of its body. -/
theorem repeatWhile_guarded (test : Running Value) (body : Running Flow) {always : Value}
    (passes : always.isTruthy = true) (p : Position) (rounds : Nat) (value : Value) :
    repeatWhile (Pure.pure always)
        (do
          let holds ← test
          if holds.isTruthy then body else return .leave p) rounds value =
      repeatWhile test body rounds value := by
  induction rounds generalizing value with
  | zero => rfl
  | succ rounds ih =>
    unfold repeatWhile
    rw [pure_bind, if_pos passes, bind_assoc]
    congr 1
    funext holds
    cases holds.isTruthy with
    | false => rfl
    | true =>
      simp only [if_true]
      congr 1
      funext flow
      cases flow with
      | normal value => exact ih value
      | next q => exact ih value
      | leave q => rfl

/-- The rounds of a loop from one session to another, by the way in which each of them ended: a test
that does not hold ends the loop, and so does a round that leaves it. -/
inductive Turns (test : Running Value) (body : Running Flow) : Session → List Flow → Session → Prop
  | over {s t : Session} {holds : Value} :
      test s = .done holds t → holds.isTruthy = false → Turns test body s [] t
  | left {s t u : Session} {holds : Value} {p : Position} :
      test s = .done holds t → holds.isTruthy = true → body t = .done (.leave p) u →
      Turns test body s [.leave p] u
  | round {s t u w : Session} {holds : Value} {flow : Flow} {flows : List Flow} :
      test s = .done holds t → holds.isTruthy = true → body t = .done flow u →
      (∀ p, flow ≠ .leave p) → Turns test body u flows w → Turns test body s (flow :: flows) w

end Running

def Flow.completed? : Flow → Option Value
  | .normal value => some value
  | .leave _ | .next _ => none

/-- The value of the last round that ran to its end; nothing if there was none. -/
def Flow.lastValue (flows : List Flow) : Value := (flows.filterMap completed?).getLastD .null

namespace Running

private theorem turns_of_repeatWhile {test : Running Value} {body : Running Flow} {rounds : Nat}
    {value : Value} {s t : Session} {flow : Flow}
    (run : repeatWhile test body rounds value s = .done flow t) :
    ∃ flows, Turns test body s flows t ∧
      flow = .normal ((flows.filterMap Flow.completed?).getLastD value) := by
  induction rounds generalizing value s with
  | zero => cases run
  | succ rounds ih =>
    unfold repeatWhile at run
    obtain ⟨holds, u, tested, run⟩ := Process.bind_eq_done_iff.mp run
    cases passed : holds.isTruthy with
    | false =>
      rw [passed] at run
      cases run
      exact ⟨[], .over tested passed, rfl⟩
    | true =>
      rw [passed, if_pos rfl] at run
      obtain ⟨ended, w, ran, run⟩ := Process.bind_eq_done_iff.mp run
      cases ended with
      | leave p =>
        cases run
        exact ⟨[.leave p], .left tested passed ran, rfl⟩
      | next p =>
        obtain ⟨flows, turns, same⟩ := ih run
        exact ⟨.next p :: flows, .round tested passed ran (by simp) turns, same⟩
      | normal latest =>
        obtain ⟨flows, turns, same⟩ := ih run
        refine ⟨.normal latest :: flows, .round tested passed ran (by simp) turns, ?_⟩
        rw [same, List.filterMap_cons, Flow.completed?, List.getLastD_cons]

end Running

namespace Stmt

/-- In front of the statements of a block, a branch that leaves unless the test holds is the test
itself. -/
theorem exec_block_guarded (rounds : Nat) (test : Expr) (body : List Stmt) (p q : Position) :
    (block (branch (.unary .not test p) (leave q) none :: body)).exec rounds = (do
      let holds ← evaluate test.eval
      if holds.isTruthy then (block body).exec rounds else return .leave q) := by
  rw [exec, execAll, exec_branch, Expr.evaluate_unary]
  simp only [bind_assoc]
  rw [inScope_evaluate]
  congr 1
  funext holds
  have negated : evaluate (ofResult (Value.unary .not holds p)) =
      Pure.pure (.bool !holds.isTruthy) := evaluate_ofResult _
  rw [negated, pure_bind]
  cases holds.isTruthy with
  | false =>
    rw [exec]
    rfl
  | true =>
    rw [exec]
    rfl

/-- The test of a loop can be moved into its body. Within any number of rounds the loop and the one
that always goes on, but leaves first thing where the test does not hold, end in the same way and
leave the same session, so that one of them ends if the other does. The value is that of the last
round that ran to its end, and nothing if there was none. -/
theorem exec_loop_guarded (test : Expr) (body : List Stmt) (p q r : Position) :
    let plain : Stmt := loop test (block body)
    let guarded : Stmt :=
      loop (.literal (.bool true) p) (block (branch (.unary .not test q) (leave r) none :: body))
    (∀ rounds, guarded.exec rounds = plain.exec rounds) ∧
      (∀ s, (∃ rounds, guarded.exec rounds s ≠ .endless) ↔
        ∃ rounds, plain.exec rounds s ≠ .endless) ∧
      ∀ rounds s flow t, plain.exec rounds s = .done flow t →
        ∃ flows, Turns (evaluate test.eval) ((block body).exec rounds) s flows t ∧
          flow = .normal (Flow.lastValue flows) := by
  intro plain guarded
  have same : ∀ rounds, guarded.exec rounds = plain.exec rounds := by
    intro rounds
    rw [exec, exec, exec_block_guarded, Expr.eval]
    exact repeatWhile_guarded _ _ rfl r rounds .null
  refine ⟨same, ?_, ?_⟩
  · intro s
    simp only [same]
  · intro rounds s flow t run
    rw [exec] at run
    exact turns_of_repeatWhile run

end Stmt

end

namespace Stmt

open scoped Buffer

theorem exec_loop_guarded_thrice :
    let name (x : String) : Expr := .name x .start
    let clear (x : String) : Stmt :=
      .expr (.assign (name x) .assign (.literal (.bool false) .start) .start)
    let body : List Stmt := [.branch (name "y")
      (.block [clear "y", .expr (.literal (.text "a") .start)])
        (some (.block [clear "x", .next .start]))]
    let s (x y : Bool) : Session :=
      ⟨(Scopes.initial.define "x" (.bool x)).define "y" (.bool y), Buffer.empty⟩
    let plain : Stmt := .loop (name "x") (.block body)
    let guarded : Stmt := .loop (.literal (.bool true) .start)
      (.block (.branch (.unary .not (name "x") .start) (.leave .start) none :: body))
    guarded.exec 3 (s true true) = .done (.normal (.text "a")) (s false false) ∧
      plain.exec 3 (s true true) = .done (.normal (.text "a")) (s false false) ∧
      ∃ flows, Turns (evaluate (name "x").eval) ((block body).exec 3) (s true true) flows
        (s false false) ∧
        Flow.normal (.text "a") = .normal (Flow.lastValue flows) := by
  intro name clear body s plain guarded
  obtain ⟨same, -, turns⟩ := exec_loop_guarded (name "x") body .start .start .start
  have ran : plain.exec 3 (s true true) = .done (.normal (.text "a")) (s false false) := rfl
  exact ⟨(congrFun (same 3) _).trans ran, ran, turns 3 _ _ _ ran⟩

end Stmt

end DaiScript
