import DaiScript.Proofs.Boundary

/-! A line feed separates texts. No piece but a string goes on over the end of its line, and
comments end with it, so a text is cut in front of a line feed as it is cut at its end. -/
namespace DaiScript

/-- From places of the kind on, each character takes a place and the one it is moved to alike. -/
structure Position.Rigid (kind : Position → Prop) (move : Position → Position) : Prop where
  kind_step : ∀ {p}, kind p → ∀ c, kind (p.step c)
  move_step : ∀ {p}, kind p → ∀ c, move (p.step c) = (move p).step c

theorem Position.Rigid.advance {kind : Position → Prop} {move : Position → Position}
    (h : Rigid kind move) {p : Position} (k : kind p) (text : List Char) :
    kind (p.advance text) ∧ move (p.advance text) = (move p).advance text := by
  induction text generalizing p with
  | nil => exact ⟨k, rfl⟩
  | cons c text ih =>
    rw [advance_cons, advance_cons, ← h.move_step k]
    exact ih (h.kind_step k c)

def Position.below (text : List Char) (p : Position) : Position :=
  ⟨p.line + (1 + text.count '\n'), p.column, p.index + (1 + text.length)⟩

theorem Position.rigid_below (text : List Char) : Rigid (fun _ => True) (below text) where
  kind_step _ _ := trivial
  move_step {p} _ c := by
    unfold step below
    split <;> simp only [Position.mk.injEq, true_and] <;> omega

private theorem Position.below_advance (text : List Char) (p : Position) (more : List Char) :
    (p.advance more).below text = (p.below text).advance more :=
  ((rigid_below text).advance trivial more).2

private theorem Position.below_start (text : List Char) :
    start.below text = behind (text ++ ['\n']) := by
  rw [behind_append_singleton]
  simp only [below, start, behind, step, if_true, Position.mk.injEq, true_and]
  omega

def Token.moved (move : Position → Position) (t : Token) : Token :=
  ⟨t.lexeme, move t.position⟩

namespace Source

open Text

/-! ### Texts in front of a line feed -/

private theorem ends_lineFeed (rest : List Char) : Ends ('\n' :: rest) :=
  ends_cons rfl rfl (by decide) (by intro e s spelled; cases s <;> cases spelled)

private theorem cut_lineFeed (rest text : List Char) (sound : (cut text).fault = none) :
    cut (text ++ '\n' :: rest) =
      ⟨(cut text).pieces ++ ⟨['\n'], some .newline⟩ :: (cut rest).pieces, (cut rest).fault⟩ := by
  have line : cut ('\n' :: rest) =
      ⟨⟨['\n'], some .newline⟩ :: (cut rest).pieces, (cut rest).fault⟩ := by
    rw [cut]
    rfl
  rw [cut_ends (ends_lineFeed rest) (by simp) text sound (by rintro - _ ⟨⟩; rfl), line]

private theorem covered_append (first second : List Piece) :
    covered (first ++ second) = covered first ++ covered second :=
  List.flatMap_append

theorem covered_cons (piece : Piece) (pieces : List Piece) :
    covered (piece :: pieces) = piece.span ++ covered pieces :=
  List.flatMap_cons

private theorem place_append (p : Position) (first second : List Piece) :
    place p (first ++ second) = place p first ++ place (p.advance (covered first)) second := by
  induction first generalizing p with
  | nil => rfl
  | cons piece first ih =>
    rw [List.cons_append, place, place, covered_cons, Position.advance_append]
    split
    · rw [ih, List.cons_append]
    · rw [ih]

theorem place_moved {kind : Position → Prop} {move : Position → Position}
    (h : Position.Rigid kind move) {p : Position} (k : kind p) (pieces : List Piece) :
    place (move p) pieces = (place p pieces).map (Token.moved move) := by
  induction pieces generalizing p with
  | nil => rfl
  | cons piece pieces ih =>
    obtain ⟨onward, moved⟩ := h.advance k piece.span
    rw [place, place, ← moved]
    split
    · rw [ih onward]
      rfl
    · rw [ih onward]

/-- The tokens of two texts with a line feed between them. The end of the first text gives way to
the line feed, and the tokens of the second text stand below the first. -/
theorem tokens_joined {first second : String} {body after : List Token} {stop : Position}
    (h : Source.tokens first false = .ok (body ++ [.finish stop]))
    (k : Source.tokens second false = .ok after) :
    Source.tokens (first ++ "\n" ++ second) false =
      .ok (body ++ ⟨.newline, stop⟩ :: after.map (Token.moved (·.below first.toList))) := by
  have run : tokensFrom .start first.toList = .ok (body ++ [.finish stop]) := h
  have run' : tokensFrom .start second.toList = .ok after := k
  simp only [tokensFrom] at run run'
  split at run
  · cases run
  split at run'
  · cases run'
  next sound _ sound' =>
  obtain ⟨rfl, last⟩ := List.append_inj' (Except.ok.inj run) rfl
  cases last
  cases run'
  have whole : (first ++ "\n" ++ second).toList = first.toList ++ '\n' :: second.toList := by simp
  obtain ⟨-, all⟩ := tiles_cut first.toList [] sound
  have onward : (Position.start.advance first.toList).advance ['\n'] =
      Position.start.below first.toList := by
    rw [Position.start_advance, behind_advance, Position.below_start]
  change tokensFrom .start (first ++ "\n" ++ second).toList = _
  rw [whole, tokensFrom, cut_lineFeed _ _ sound]
  dsimp only
  rw [sound', place_append, covered_append, covered_cons, all, Position.advance_append,
    Position.advance_append, place, onward, place_moved (Position.rigid_below _) trivial,
    ← Position.below_advance]
  simp [Token.moved, Token.finish]

end Source

end DaiScript
