import DaiScript.Proofs.TokenMoves
import DaiScript.Proofs.Walk

/-! What a reading guarantees at a cursor in front of an end of input: it ends, it moves forward
only, and a fault is that of the token on which it stops. The rules follow the primitive readings,
so a layer of the grammar is judged without looking at cursors. -/
namespace DaiScript

def SyntaxError.Here (_ : Cursor) (e : SyntaxError) (d : Cursor) : Prop :=
  e.Blames d.peek

instance : TokenMoves Cursor.Passes SyntaxError.Here where
  stay := Cursor.Passes.refl
  go := Cursor.Passes.trans
  back := fun _ met => met

namespace Reading

abbrev Reads (r : Reading α) (c : Cursor) (spelled : List Token → α → Prop) : Prop :=
  Ends Cursor.Passes SyntaxError.Here r c spelled

variable {c : Cursor} {spelled : List Token → α → Prop}

theorem Reads.peek_bind {next : Token → Reading α} (h : Reads (next c.peek) c spelled) :
    Reads (peek >>= next) c spelled :=
  h

theorem Reads.read_bind {view : Cursor → β} {next : β → Reading α}
    (h : Reads (next (view c)) c spelled) : Reads (Process.read view >>= next) c spelled :=
  h

theorem Reads.advance_bind {next : Unit → Reading α} (grounded : c.Grounded)
    (inside : c.peek.kind ≠ .finish)
    (h : ∀ d, c.Passes [c.peek] d → Reads (next ()) d fun used a => spelled (c.peek :: used) a) :
    Reads (advance >>= next) c spelled := by
  have walk := grounded.passes_advance inside
  exact .bind_of_done rfl walk (h _ walk)

theorem accept?_eq {kind : Kind} (grounded : c.Grounded) (notFinish : kind ≠ .finish) :
    accept? kind c =
      if c.peek.kind = kind then .done (some c.peek) c.advance else .done none c := by
  unfold accept? Cursor.advanceIf Cursor.check Cursor.atEnd
  by_cases hk : c.peek.kind = kind
  · simp [hk, notFinish, grounded.previous_advance (hk ▸ notFinish)]
  · simp [hk]

theorem expect_eq {kind : Kind} (grounded : c.Grounded) (notFinish : kind ≠ .finish) :
    expect kind c = if c.peek.kind = kind then .done c.peek c.advance
      else .failed ⟨.unexpected kind.describe c.peek.describe, c.peek.position⟩ c := by
  change (accept? kind >>= _) c = _
  rw [Process.bind_apply, accept?_eq grounded notFinish]
  by_cases hk : c.peek.kind = kind
  · rw [if_pos hk, if_pos hk]
    rfl
  · rw [if_neg hk, if_neg hk]
    rfl

theorem close_eq {symbol : Symbol} {delimiter : Char} (grounded : c.Grounded) :
    close symbol delimiter c = if c.peek.kind = .symbol symbol then .done () c.advance
      else .failed ⟨.unclosed delimiter c.peek.describe, c.peek.position⟩ c := by
  change (accept? (.symbol symbol) >>= _) c = _
  rw [Process.bind_apply, accept?_eq grounded (by simp)]
  by_cases hk : c.peek.kind = .symbol symbol
  · rw [if_pos hk, if_pos hk]
    rfl
  · rw [if_neg hk, if_neg hk]
    rfl

theorem Reads.accept_bind {kind : Kind} {next : Option Token → Reading α} (grounded : c.Grounded)
    (notFinish : kind ≠ .finish)
    (taken : ∀ t d, c.Passes [t] d → t.kind = kind →
      Reads (next (some t)) d fun used a => spelled (t :: used) a)
    (left : c.peek.kind ≠ kind → Reads (next none) c spelled) :
    Reads (accept? kind >>= next) c spelled := by
  have run := accept?_eq grounded notFinish
  by_cases hk : c.peek.kind = kind
  · rw [if_pos hk] at run
    have walk := grounded.passes_advance (hk ▸ notFinish)
    exact .bind_of_done run walk (taken c.peek _ walk hk)
  · rw [if_neg hk] at run
    exact .bind_of_done run (.refl c) (left hk)

theorem Reads.reject {cause : String → SyntaxCause} (names : ∀ s, (cause s).found = s) :
    Reads (reject cause) c spelled :=
  ⟨⟨[], .refl c⟩, names _, rfl⟩

theorem Reads.expect {kind : Kind} (grounded : c.Grounded) (notFinish : kind ≠ .finish) :
    Reads (expect kind) c fun used t => used = [t] ∧ t.kind = kind :=
  .accept_bind grounded notFinish (fun _ _ _ hk => .pure ⟨rfl, hk⟩) fun _ => .reject fun _ => rfl

theorem Reads.close {symbol : Symbol} {delimiter : Char} (grounded : c.Grounded) :
    Reads (close symbol delimiter) c fun used _ => ∃ t, used = [t] ∧ t.kind = .symbol symbol :=
  .accept_bind grounded (by simp) (fun t _ _ hk => .pure ⟨t, rfl, hk⟩) fun _ => .reject fun _ => rfl

theorem skipNewlines_eq (grounded : c.Grounded) : skipNewlines c = .done () c.pastNewlines := by
  obtain ⟨breaks, -, walk, stopped⟩ := grounded.passes_pastNewlines
  unfold skipNewlines Cursor.check
  rw [if_neg (by simp [stopped])]

end Reading

end DaiScript
