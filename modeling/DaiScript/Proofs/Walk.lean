import Mathlib.Data.List.TakeWhile
import DaiScript.Grammar.Reading

/-! Cursors that rest in front of an end-of-input token. Such a cursor only moves forward and never
passes the end, so what a reading does is told by the tokens between its start and its stop. -/
namespace DaiScript

def SyntaxCause.found : SyntaxCause → String
  | unexpected _ found => found
  | noExpression found => found
  | unclosed _ found => found

def SyntaxError.Blames (e : SyntaxError) (t : Token) : Prop :=
  e.cause.found = t.describe ∧ e.position = t.position

namespace Cursor

/-- An end of input lies ahead, and the cursor has not stepped past the last token. -/
structure Grounded (c : Cursor) : Prop where
  within : c.beyond = 0
  finish : ∃ t ∈ c.ahead, t.kind = .finish

def left (c : Cursor) : Nat := (c.ahead.takeWhile (·.kind != .finish)).length

/-- `later` is the cursor `c` moved over the tokens `used`, none of which ends the input. -/
structure Passes (c : Cursor) (used : List Token) (later : Cursor) : Prop where
  ahead : c.ahead = used ++ later.ahead
  behind : later.behind = used.reverse ++ c.behind
  beyond : later.beyond = c.beyond
  unfinished : ∀ t ∈ used, t.kind ≠ .finish

namespace Passes

theorem refl (c : Cursor) : c.Passes [] c :=
  ⟨rfl, rfl, rfl, by simp⟩

theorem trans {c d e : Cursor} {first second : List Token} (h : c.Passes first d)
    (k : d.Passes second e) : c.Passes (first ++ second) e where
  ahead := by rw [h.ahead, k.ahead, List.append_assoc]
  behind := by rw [k.behind, h.behind, List.reverse_append, List.append_assoc]
  beyond := k.beyond.trans h.beyond
  unfinished := by
    intro t ht
    rcases List.mem_append.mp ht with ht | ht
    · exact h.unfinished t ht
    · exact k.unfinished t ht

theorem eq_of_nil {c d : Cursor} (h : c.Passes [] d) : d = c := by
  obtain ⟨ahead, behind, beyond, -⟩ := h
  cases c
  cases d
  simp_all

theorem grounded {c d : Cursor} {used : List Token} (h : c.Passes used d) (hc : c.Grounded) :
    d.Grounded := by
  refine ⟨h.beyond.trans hc.within, ?_⟩
  obtain ⟨t, ht, kind⟩ := hc.finish
  rw [h.ahead, List.mem_append] at ht
  rcases ht with ht | ht
  · exact absurd kind (h.unfinished t ht)
  · exact ⟨t, ht, kind⟩

theorem left_eq {c d : Cursor} {used : List Token} (h : c.Passes used d) :
    c.left = used.length + d.left := by
  have front : ∀ t ∈ used, (t.kind != .finish) = true := by
    intro t ht
    simpa using h.unfinished t ht
  simp only [left, h.ahead, List.takeWhile_append_of_pos front, List.length_append]

end Passes

namespace Grounded

variable {c : Cursor}

theorem ahead_eq (h : c.Grounded) : c.ahead = c.peek :: c.ahead.tail := by
  obtain ⟨t, ht, -⟩ := h.finish
  cases hc : c.ahead with
  | nil => simp [hc] at ht
  | cons u rest => simp [peek, hc]

theorem left_lt (h : c.Grounded) : c.left < c.ahead.length := by
  obtain ⟨t, ht, kind⟩ := h.finish
  by_contra hle
  have front : c.ahead.takeWhile (·.kind != .finish) <+: c.ahead := List.takeWhile_prefix _
  have whole := front.eq_of_length_le (by simpa [left] using hle)
  have := List.mem_takeWhile_imp (whole ▸ ht)
  simp [kind] at this

theorem passes_advance (h : c.Grounded) (inside : c.peek.kind ≠ .finish) :
    c.Passes [c.peek] c.advance := by
  have ahead := h.ahead_eq
  have moved : c.advance = { c with behind := c.peek :: c.behind, ahead := c.ahead.tail } := by
    unfold advance atEnd
    rw [if_neg (by simpa using inside)]
    split
    · next t rest hc => simp [peek, hc]
    · next hc => simp [hc] at ahead
  exact ⟨by rw [moved]; exact ahead, by rw [moved]; rfl, by rw [moved], by simpa using inside⟩

theorem previous_advance (h : c.Grounded) (inside : c.peek.kind ≠ .finish) :
    c.advance.previous = c.peek := by
  have step := h.passes_advance inside
  unfold previous
  rw [step.behind, step.beyond, h.within]
  rfl

theorem passes_pastNewlines (h : c.Grounded) :
    ∃ breaks, (∀ t ∈ breaks, t.kind = .newline) ∧ c.Passes breaks c.pastNewlines ∧
      c.pastNewlines.peek.kind ≠ .newline := by
  have newlines : ∀ t ∈ c.ahead.takeWhile (·.kind == .newline), t.kind = .newline := by
    intro t ht
    simpa using List.mem_takeWhile_imp ht
  have step : c.Passes (c.ahead.takeWhile (·.kind == .newline)) c.pastNewlines :=
    { ahead := List.takeWhile_append_dropWhile.symm
      behind := rfl
      beyond := rfl
      unfinished := by intro t ht; simp [newlines t ht] }
  refine ⟨_, newlines, step, ?_⟩
  have ahead := (step.grounded h).ahead_eq
  have stopped := List.head?_dropWhile_not (fun t : Token => t.kind == .newline) c.ahead
  change c.ahead.dropWhile _ = _ at ahead
  rw [ahead] at stopped
  simpa using stopped

end Grounded

end Cursor

end DaiScript
