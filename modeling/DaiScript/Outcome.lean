/-! Processes that change a state. A process ends with a value or with an error, and either way the
state it reached is kept; or it never ends, which is an outcome of its own and no error. -/
namespace DaiScript

inductive Outcome (ε σ α : Type) where
  | done (value : α) (state : σ)
  | failed (error : ε) (state : σ)
  | endless
  deriving DecidableEq, Repr

namespace Outcome

def result : Outcome ε σ α → Option (Except ε α)
  | done value _ => some (.ok value)
  | failed error _ => some (.error error)
  | endless => none

/-- Looks at the state of an outcome from outside: `wrap` puts it into a larger one. -/
def mapState (wrap : σ → τ) : Outcome ε σ α → Outcome ε τ α
  | done value state => done value (wrap state)
  | failed error state => failed error (wrap state)
  | endless => endless

end Outcome

def Process (ε σ α : Type) := σ → Outcome ε σ α

namespace Process

@[inline] def pure (a : α) : Process ε σ α :=
  fun s => .done a s

@[inline] def bind (p : Process ε σ α) (next : α → Process ε σ β) : Process ε σ β :=
  fun s =>
    match p s with
    | .done a s => next a s
    | .failed e s => .failed e s
    | .endless => .endless

@[inline] instance : Monad (Process ε σ) where
  pure := Process.pure
  bind := Process.bind

def endless : Process ε σ α := fun _ => .endless

def fail (e : ε) : Process ε σ α := fun s => .failed e s

@[inline] def read (view : σ → α) : Process ε σ α := fun s => .done (view s) s

@[inline] def modify (change : σ → σ) : Process ε σ Unit := fun s => .done () (change s)

@[inline] def attempt (p : Process ε σ α) : Process ε σ (Except ε α) :=
  fun s =>
    match p s with
    | .done a s => .done (.ok a) s
    | .failed e s => .done (.error e) s
    | .endless => .endless

@[inline] def within (view : σ → τ) (put : σ → τ → σ) (p : Process ε τ α) : Process ε σ α :=
  fun s => (p (view s)).mapState (put s)

theorem pure_apply (a : α) (s : σ) : (Pure.pure a : Process ε σ α) s = .done a s := rfl

theorem bind_apply (p : Process ε σ α) (next : α → Process ε σ β) (s : σ) :
    (p >>= next) s =
      match p s with
      | .done a s => next a s
      | .failed e s => .failed e s
      | .endless => .endless := rfl

theorem attempt_apply (p : Process ε σ α) (s : σ) :
    attempt p s =
      match p s with
      | .done a s => .done (.ok a) s
      | .failed e s => .done (.error e) s
      | .endless => .endless := rfl

theorem bind_eq_done_iff {p : Process ε σ α} {next : α → Process ε σ β} {s t : σ} {b : β} :
    (p >>= next) s = .done b t ↔ ∃ a u, p s = .done a u ∧ next a u = .done b t := by
  rw [bind_apply]
  cases p s <;> simp [and_assoc]

theorem bind_eq_failed_iff {p : Process ε σ α} {next : α → Process ε σ β} {s t : σ} {e : ε} :
    (p >>= next) s = .failed e t ↔
      p s = .failed e t ∨ ∃ a u, p s = .done a u ∧ next a u = .failed e t := by
  rw [bind_apply]
  cases p s <;> simp [and_assoc]

theorem bind_eq_endless_iff {p : Process ε σ α} {next : α → Process ε σ β} {s : σ} :
    (p >>= next) s = .endless ↔
      p s = .endless ∨ ∃ a u, p s = .done a u ∧ next a u = .endless := by
  rw [bind_apply]
  cases p s <;> simp [and_assoc]

instance : LawfulMonad (Process ε σ) :=
  LawfulMonad.mk' _
    (by
      intro α p
      funext s
      change (match p s with | .done a s => _ | .failed e s => _ | .endless => _) = p s
      cases p s <;> rfl)
    (by intros; rfl)
    (by
      intro α β γ p f g
      funext s
      simp only [bind_apply]
      cases p s <;> rfl)

end Process

end DaiScript
