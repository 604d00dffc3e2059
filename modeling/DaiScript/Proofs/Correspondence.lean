import DaiScript.Outcome

/-! Two processes side by side. They correspond if they end alike from states that correspond: both
with values, both with errors, or both never. Some outcomes without a value may be excused from
having a counterpart; so one judgement covers runs that agree in everything, runs of which one has
less patience, and runs of which only the successful ones matter. -/
namespace DaiScript

structure Correspondence (ε σ : Type) where
  state : σ → σ → Prop
  error : ε → ε → Prop
  /-- The errors, and the missing end, that need no counterpart. -/
  excused : Option ε → Prop

variable {ε σ τ α β γ δ : Type}

/-- The second of two bounds on the same recursion is no less than the first, and the first runs out
earlier only if the run may be `impatient`. -/
inductive Lasts (impatient : Prop) : Nat → Nat → Prop
  | zero : Lasts impatient 0 0
  | short {m : Nat} : impatient → Lasts impatient 0 m
  | succ {n m : Nat} : Lasts impatient n m → Lasts impatient (n + 1) (m + 1)

namespace Lasts

variable {impatient : Prop}

theorem refl (n : Nat) : Lasts impatient n n := by
  induction n with
  | zero => exact .zero
  | succ n ih => exact .succ ih

theorem of_le (h : impatient) {n m : Nat} (le : n ≤ m) : Lasts impatient n m := by
  induction n generalizing m with
  | zero => exact .short h
  | succ n ih =>
    cases m with
    | zero => omega
    | succ m => exact .succ (ih (by omega))

end Lasts

inductive Outcome.Matches (C : Correspondence ε σ) (value : α → β → Prop) :
    Outcome ε σ α → Outcome ε σ β → Prop
  | done {a : α} {b : β} {s t : σ} :
      value a b → C.state s t → Matches C value (.done a s) (.done b t)
  | failed {e e' : ε} {s t : σ} :
      C.error e e' → C.state s t → Matches C value (.failed e s) (.failed e' t)
  | endless : Matches C value .endless .endless
  | excusedFailed {e : ε} {s : σ} {o : Outcome ε σ β} :
      C.excused (some e) → Matches C value (.failed e s) o
  | excusedEndless {o : Outcome ε σ β} : C.excused none → Matches C value .endless o

namespace Outcome.Matches

variable {C : Correspondence ε σ} {value : α → β → Prop} {wider : γ → δ → Prop}

theorem of_done {o : Outcome ε σ α} {o' : Outcome ε σ β} {a : α} {s : σ} (h : Matches C value o o')
    (run : o = .done a s) : ∃ b t, o' = .done b t ∧ value a b ∧ C.state s t := by
  subst run
  cases h with
  | done hv hs => exact ⟨_, _, rfl, hv, hs⟩

theorem bind {p : Process ε σ α} {q : Process ε σ β} {next : α → Process ε σ γ}
    {next' : β → Process ε σ δ} {s t : σ} (h : Matches C value (p s) (q t))
    (k : ∀ a b s t, value a b → C.state s t → Matches C wider (next a s) (next' b t)) :
    Matches C wider ((p >>= next) s) ((q >>= next') t) := by
  rw [Process.bind_apply, Process.bind_apply]
  generalize p s = o at h
  generalize q t = o' at h
  cases h with
  | done hv hs => exact k _ _ _ _ hv hs
  | failed he hs => exact .failed he hs
  | endless => exact .endless
  | excusedFailed he => exact .excusedFailed he
  | excusedEndless he => exact .excusedEndless he

theorem mapState {D : Correspondence ε τ} {o : Outcome ε σ α} {o' : Outcome ε σ β} {f g : σ → τ}
    (h : Matches C value o o') (state : ∀ s t, C.state s t → D.state (f s) (g t))
    (error : ∀ e e', C.error e e' → D.error e e') (excused : ∀ e, C.excused e → D.excused e) :
    Matches D value (o.mapState f) (o'.mapState g) := by
  cases h with
  | done hv hs => exact .done hv (state _ _ hs)
  | failed he hs => exact .failed (error _ _ he) (state _ _ hs)
  | endless => exact .endless
  | excusedFailed he => exact .excusedFailed (excused _ he)
  | excusedEndless he => exact .excusedEndless (excused _ he)

end Outcome.Matches

def Process.Matches (C : Correspondence ε σ) (value : α → β → Prop) (p : Process ε σ α)
    (q : Process ε σ β) : Prop :=
  ∀ ⦃s t⦄, C.state s t → Outcome.Matches C value (p s) (q t)

namespace Process.Matches

variable {C : Correspondence ε σ} {value : α → β → Prop} {wider : γ → δ → Prop}

theorem pure {a : α} {b : β} (h : value a b) :
    Process.Matches C value (Pure.pure a) (Pure.pure b) :=
  fun _ _ hs => .done h hs

theorem bind {p : Process ε σ α} {q : Process ε σ β} {next : α → Process ε σ γ}
    {next' : β → Process ε σ δ} (h : Process.Matches C value p q)
    (k : ∀ a b, value a b → Process.Matches C wider (next a) (next' b)) :
    Process.Matches C wider (p >>= next) (q >>= next') :=
  fun _ _ hs => (h hs).bind fun a b _ _ hv ht => k a b hv ht

theorem bind_same {p q : Process ε σ α} {next : α → Process ε σ γ} {next' : α → Process ε σ δ}
    (h : Process.Matches C Eq p q) (k : ∀ a, Process.Matches C wider (next a) (next' a)) :
    Process.Matches C wider (p >>= next) (q >>= next') := by
  apply h.bind
  rintro a _ rfl
  exact k a

theorem fail {e e' : ε} (h : C.error e e') :
    Process.Matches C value (Process.fail e) (Process.fail e') :=
  fun _ _ hs => .failed h hs

theorem endless : Process.Matches C value Process.endless Process.endless :=
  fun _ _ _ => .endless

theorem excused (h : C.excused none) (q : Process ε σ β) :
    Process.Matches C value (Process.endless : Process ε σ α) q :=
  fun _ _ _ => .excusedEndless h

end Process.Matches

end DaiScript
