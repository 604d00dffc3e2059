import DaiScript.Proofs.ExpressionSound

/-! What a parsing of statements guarantees on a stream in front of an end of input, whether the
stream recovers or not: it ends, it moves forward only, and an error it hands on names one of the
tokens. -/
namespace DaiScript

/-- `later` is the stream moved over the tokens `used`; a stream that recovers goes on doing so. -/
structure Stream.Passes (s : Stream) (used : List Token) (later : Stream) : Prop where
  cursor : s.cursor.Passes used later.cursor
  mode : later.noted.isSome = s.noted.isSome

def Stream.pastNewlines (s : Stream) : Stream :=
  { s with cursor := s.cursor.pastNewlines }

namespace Stream.Passes

theorem refl (s : Stream) : s.Passes [] s :=
  ⟨.refl s.cursor, rfl⟩

theorem trans {s d e : Stream} {first second : List Token} (h : s.Passes first d)
    (k : d.Passes second e) : s.Passes (first ++ second) e :=
  ⟨h.cursor.trans k.cursor, k.mode.trans h.mode⟩

theorem noted_eq_none {s d : Stream} {used : List Token} (h : s.Passes used d) :
    d.noted = none ↔ s.noted = none := by
  have mode := h.mode
  rw [← Option.isNone_iff_eq_none, ← Option.isNone_iff_eq_none, ← Option.not_isSome,
    ← Option.not_isSome, mode]

end Stream.Passes

theorem Cursor.Passes.tokens_eq {c d : Cursor} {used : List Token} (h : c.Passes used d) :
    d.tokens = c.tokens := by
  unfold Cursor.tokens
  rw [h.behind, h.ahead, List.reverse_append, List.reverse_reverse, List.append_assoc]

def SyntaxError.Somewhere (s : Stream) (e : SyntaxError) (_ : Stream) : Prop :=
  ∃ t ∈ s.cursor.tokens, e.Blames t

instance : TokenMoves Stream.Passes SyntaxError.Somewhere where
  stay := Stream.Passes.refl
  go := Stream.Passes.trans
  back := fun moved ⟨t, ht, blamed⟩ => ⟨t, moved.cursor.tokens_eq ▸ ht, blamed⟩

namespace Grammar

open Reading

abbrev Parses (p : Parsing α) (s : Stream) (formed : List Token → α → Prop) : Prop :=
  Ends Stream.Passes SyntaxError.Somewhere p s formed

variable {s : Stream} {formed : List Token → α → Prop}

theorem under_apply (r : Reading α) (s : Stream) :
    under r s = (r s.cursor).mapState fun c => { s with cursor := c } := rfl

theorem under_of_done {r : Reading α} {a : α} {c : Cursor} (h : r s.cursor = .done a c) :
    Grammar.under r s = .done a { s with cursor := c } := by
  rw [under_apply, h]
  rfl

theorem Parses.under {r : Reading α} (grounded : s.cursor.Grounded)
    (h : Reads r s.cursor formed) : Parses (under r) s formed := by
  unfold Parses Ends
  unfold Reads Ends at h
  rw [under_apply]
  cases run : r s.cursor with
  | endless => rw [run] at h; exact h
  | failed e d =>
    rw [run] at h
    obtain ⟨⟨used, walk⟩, blamed⟩ := h
    have ahead := (walk.grounded grounded).ahead_eq
    have rests : d.peek ∈ d.tokens := by
      unfold Cursor.tokens
      rw [ahead]
      simp
    exact ⟨⟨used, walk, rfl⟩, d.peek, walk.tokens_eq ▸ rests, blamed⟩
  | done a d =>
    rw [run] at h
    obtain ⟨used, walk, hs⟩ := h
    exact ⟨used, ⟨walk, rfl⟩, hs⟩

theorem Parses.read_bind {view : Stream → β} {next : β → Parsing α}
    (h : Parses (next (view s)) s formed) : Parses (Process.read view >>= next) s formed :=
  h

theorem Parses.read_under_bind {view : Cursor → β} {next : β → Parsing α}
    (h : Parses (next (view s.cursor)) s formed) :
    Parses (Grammar.under (Process.read view) >>= next) s formed :=
  h

theorem Parses.advance_bind {next : Unit → Parsing α} (grounded : s.cursor.Grounded)
    (inside : s.cursor.peek.kind ≠ .finish)
    (h : ∀ d, s.Passes [s.cursor.peek] d →
      Parses (next ()) d fun used a => formed (s.cursor.peek :: used) a) :
    Parses (Grammar.under advance >>= next) s formed := by
  have walk : s.Passes [s.cursor.peek] { s with cursor := s.cursor.advance } :=
    ⟨grounded.passes_advance inside, rfl⟩
  exact .bind_of_done rfl walk (h _ walk)

theorem under_skipNewlines_eq (grounded : s.cursor.Grounded) :
    under skipNewlines s = .done () s.pastNewlines := by
  rw [under_apply, skipNewlines_eq grounded]
  rfl

theorem Parses.skip_bind {next : Unit → Parsing α} (grounded : s.cursor.Grounded)
    (h : ∀ breaks, (∀ b ∈ breaks, b.kind = .newline) → s.Passes breaks s.pastNewlines →
      Parses (next ()) s.pastNewlines fun used a => formed (breaks ++ used) a) :
    Parses (Grammar.under skipNewlines >>= next) s formed := by
  obtain ⟨breaks, newlines, walk, -⟩ := grounded.passes_pastNewlines
  exact .bind_of_done (under_skipNewlines_eq grounded) ⟨walk, rfl⟩ (h breaks newlines ⟨walk, rfl⟩)

end Grammar

end DaiScript
