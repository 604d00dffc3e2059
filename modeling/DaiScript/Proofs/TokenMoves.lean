import DaiScript.Outcome
import DaiScript.Token.Basic

/-! Two judgements on processes over tokens: what one guarantees when it ends, and what it is bound
to take. Both are told by the tokens passed on the way, so the rules below need no more of a state
than how it moves over tokens. -/
namespace DaiScript

/-- Moves over tokens compose, and an error met further on is an error from here. -/
class TokenMoves (walk : σ → List Token → σ → Prop) (fault : σ → ε → σ → Prop) : Prop where
  stay : ∀ s, walk s [] s
  go : ∀ {s d f first second}, walk s first d → walk d second f → walk s (first ++ second) f
  back : ∀ {s d f used e}, walk s used d → fault d e f → fault s e f

/-- The process ends on `s`. If it succeeds, `post` relates the tokens it passed to its result. -/
def Ends (walk : σ → List Token → σ → Prop) (fault : σ → ε → σ → Prop) (p : Process ε σ α) (s : σ)
    (post : List Token → α → Prop) : Prop :=
  match p s with
  | .done a d => ∃ used, walk s used d ∧ post used a
  | .failed e d => (∃ used, walk s used d) ∧ fault s e d
  | .endless => False

namespace Ends

variable {walk : σ → List Token → σ → Prop} {fault : σ → ε → σ → Prop} {s : σ}
variable {p : Process ε σ α} {post : List Token → α → Prop}

theorem congr {p' : Process ε σ α} (same : p s = p' s) (h : Ends walk fault p' s post) :
    Ends walk fault p s post := by
  unfold Ends at *
  rwa [same]

theorem mono {weaker : List Token → α → Prop} (h : Ends walk fault p s post)
    (implies : ∀ used a, post used a → weaker used a) : Ends walk fault p s weaker := by
  unfold Ends at *
  split at h
  · obtain ⟨used, moved, hp⟩ := h
    exact ⟨used, moved, implies used _ hp⟩
  · exact h
  · exact h

theorem of_done {a : α} {d : σ} (h : Ends walk fault p s post) (run : p s = .done a d) :
    ∃ used, walk s used d ∧ post used a := by
  unfold Ends at h
  rwa [run] at h

theorem of_failed {e : ε} {d : σ} (h : Ends walk fault p s post) (run : p s = .failed e d) :
    (∃ used, walk s used d) ∧ fault s e d := by
  unfold Ends at h
  rwa [run] at h

theorem not_endless (h : Ends walk fault p s post) : p s ≠ .endless := by
  intro run
  unfold Ends at h
  rwa [run] at h

variable [TokenMoves walk fault]

theorem pure {a : α} (h : post [] a) : Ends walk fault (Pure.pure a) s post :=
  ⟨[], TokenMoves.stay fault s, h⟩

theorem further {q : Process ε σ α} {d : σ} {used : List Token} (run : p s = q d)
    (moved : walk s used d) (h : Ends walk fault q d fun more a => post (used ++ more) a) :
    Ends walk fault p s post := by
  unfold Ends at h ⊢
  rw [run]
  cases run' : q d with
  | endless => rw [run'] at h; exact h
  | failed e f =>
    rw [run'] at h
    obtain ⟨⟨more, onward⟩, met⟩ := h
    exact ⟨⟨used ++ more, TokenMoves.go fault moved onward⟩, TokenMoves.back moved met⟩
  | done a f =>
    rw [run'] at h
    obtain ⟨more, onward, hp⟩ := h
    exact ⟨used ++ more, TokenMoves.go fault moved onward, hp⟩

theorem bind_of_done {next : α → Process ε σ β} {whole : List Token → β → Prop} {a : α} {d : σ}
    {used : List Token} (run : p s = .done a d) (moved : walk s used d)
    (h : Ends walk fault (next a) d fun more b => whole (used ++ more) b) :
    Ends walk fault (p >>= next) s whole := by
  have onward : (p >>= next) s = next a d := by rw [Process.bind_apply, run]
  exact further onward moved h

theorem bind {next : α → Process ε σ β} {whole : List Token → β → Prop}
    (h : Ends walk fault p s post)
    (k : ∀ a used d, walk s used d → post used a →
      Ends walk fault (next a) d fun more b => whole (used ++ more) b) :
    Ends walk fault (p >>= next) s whole := by
  cases run : p s with
  | done a d =>
    obtain ⟨used, moved, hp⟩ := h.of_done run
    exact bind_of_done run moved (k a used d moved hp)
  | _ =>
    unfold Ends at h ⊢
    rw [run] at h
    rw [Process.bind_apply, run]
    exact h

end Ends

/-- The process takes exactly `used` in front of `rest` and returns `a`. `place behind ahead` is the
state between the two lists, the first of them reversed. -/
def Consumes (place : List Token → List Token → σ) (p : Process ε σ α) (used rest : List Token)
    (a : α) : Prop :=
  ∀ behind, p (place behind (used ++ rest)) = .done a (place (used.reverse ++ behind) rest)

namespace Consumes

variable {place : List Token → List Token → σ} {p : Process ε σ α} {next : α → Process ε σ β}
variable {used rest : List Token} {a : α} {b : β}

theorem pure : Consumes place (Pure.pure a : Process ε σ α) [] rest a :=
  fun _ => rfl

theorem bind (first second : List Token) (h : Consumes place p first (second ++ rest) a)
    (k : Consumes place (next a) second rest b) :
    Consumes place (p >>= next) (first ++ second) rest b := by
  intro behind
  have run := h behind
  have run' := k (first.reverse ++ behind)
  rw [Process.bind_apply, List.append_assoc, run, List.reverse_append, List.append_assoc]
  exact run'

theorem bind_nil (h : Consumes place p used rest a) (k : Consumes place (next a) [] rest b) :
    Consumes place (p >>= next) used rest b := by
  have whole := bind used [] h k
  rwa [List.append_nil] at whole

theorem map (h : Consumes place p used rest a) (k : next a = Pure.pure b) :
    Consumes place (p >>= next) used rest b := by
  apply h.bind_nil
  rw [k]
  exact pure

end Consumes

end DaiScript
