import DaiScript.Proofs.Lines

/-! The entry phrase is only a front. What stands behind it is cut as a text of its own, since
cutting looks neither at places nor at what went before; the places are those of that text, moved by
the white space and the phrase. Only the first line of the text stands on the line of the phrase. -/
namespace DaiScript

/-- The place that `p` becomes when `front` comes first. -/
def Position.after (front : List Char) (p : Position) : Position :=
  ⟨p.line + front.count '\n',
    if p.line = 1 then p.column + (front.reverse.takeWhile (· != '\n')).length else p.column,
    p.index + front.length⟩

theorem Position.rigid_after (front : List Char) : Rigid (1 ≤ ·.line) (after front) where
  kind_step {p} k c := by
    unfold step
    split
    · exact Nat.le_succ_of_le k
    · exact k
  move_step {p} k c := by
    have later : p.line + 1 ≠ 1 := by omega
    unfold step after
    by_cases feed : c = '\n'
    · simp only [if_pos feed, if_neg later, Position.mk.injEq, true_and]
      omega
    · by_cases first : p.line = 1
      · simp only [if_neg feed, if_pos first, Position.mk.injEq, true_and]
        omega
      · simp only [if_neg feed, if_neg first, Position.mk.injEq, true_and]
        omega

theorem Position.after_start (front : List Char) : start.after front = behind front := by
  simp [after, start, behind]

theorem Position.after_behind (front text : List Char) :
    (behind text).after front = behind (front ++ text) := by
  rw [← start_advance, ((rigid_after front).advance (Nat.le_refl 1) text).2, after_start,
    Source.behind_advance]

def ScanError.moved (move : Position → Position) (e : ScanError) : ScanError :=
  ⟨e.cause, move e.position⟩

namespace Source

open Text

private theorem head?_marker : marker.head? = some 'N' := by decide

private theorem tokensFrom_moved {kind : Position → Prop} {move : Position → Position}
    (h : Position.Rigid kind move) {p : Position} (k : kind p) (text : List Char) :
    tokensFrom (move p) text =
      ((tokensFrom p text).map (List.map (Token.moved move))).mapError (ScanError.moved move) := by
  simp only [tokensFrom, ← (h.advance k _).2]
  cases (cut text).fault with
  | some cause => rfl
  | none =>
    dsimp only [Except.map, Except.mapError]
    rw [place_moved h k, List.map_append]
    rfl

theorem tokensFrom_behind (front text : List Char) :
    tokensFrom (.behind front) text =
      ((tokensFrom .start text).map (List.map (Token.moved (.after front)))).mapError
        (ScanError.moved (.after front)) := by
  rw [← Position.after_start]
  exact tokensFrom_moved (Position.rigid_after front) (Nat.le_refl 1) text

section

variable {source : String} {white rest : List Char} (shape : source.toList = white ++ rest)
  (inside : ∀ c ∈ white, isWhite c = true) (outside : ∀ c ∈ rest.head?, isWhite c = false)
include shape inside outside

private theorem trimStart_eq : trimStart source.toList = rest := by
  rw [trimStart, shape, List.dropWhile_append_of_pos inside]
  cases rest with
  | nil => rfl
  | cons c rest => simp [outside c rfl]

theorem tokens_of_front :
    tokens source true =
      if marker.isPrefixOf rest then
        tokensFrom (.behind (white ++ marker)) (rest.drop marker.length)
      else .error ⟨.missingMarker, Position.start.advance white⟩ := by
  have lead : source.toList.takeWhile isWhite = white := by
    rw [shape, takeWhile_of_front inside outside]
  unfold tokens
  simp only [if_true, lead, trimStart_eq shape inside outside]
  rw [← Position.advance_append, Position.start_advance]

end

/-- The entry phrase is only a front. A text behind white space and the phrase has the tokens that
it has by itself, or the same error, with the places that they have when what is in front comes
first. A source that does not go on with the phrase behind its white space fails right there. -/
theorem tokens_marked :
    (∀ white body : String, (∀ c ∈ white.toList, isWhite c = true) →
      let move := Position.after (white.toList ++ marker)
      tokens (white ++ "Namaste Dai" ++ body) true =
          ((tokens body false).map (List.map (Token.moved move))).mapError (ScanError.moved move) ∧
        ∀ text, move (.behind text) = .behind (white.toList ++ marker ++ text)) ∧
    ∀ (source : String) (white rest : List Char), source.toList = white ++ rest →
      (∀ c ∈ white, isWhite c = true) → (∀ c ∈ rest.head?, isWhite c = false) → ¬ marker <+: rest →
      tokens source true = .error ⟨.missingMarker, Position.start.advance white⟩ := by
  constructor
  · intro white body inside move
    have shape : (white ++ "Namaste Dai" ++ body).toList =
        white.toList ++ (marker ++ body.toList) := by
      rw [String.toList_append, String.toList_append, List.append_assoc]
      rfl
    have outside : ∀ c ∈ (marker ++ body.toList).head?, isWhite c = false := by
      rw [List.head?_append, head?_marker]
      rintro c ⟨⟩
      rfl
    have opens : marker.isPrefixOf (marker ++ body.toList) = true :=
      List.isPrefixOf_iff_prefix.mpr (List.prefix_append _ _)
    refine ⟨?_, Position.after_behind _⟩
    rw [tokens_of_front shape inside outside, if_pos opens, List.drop_left, tokensFrom_behind]
    rfl
  · intro source white rest shape inside outside missing
    rw [tokens_of_front shape inside outside, if_neg]
    rwa [List.isPrefixOf_iff_prefix]

theorem tokens_marked_blanks :
    tokens ("\u3000\n " ++ "Namaste Dai" ++ ";\n;") true =
        .ok [⟨.symbol .semicolon, ⟨2, 13, 14⟩⟩, ⟨.newline, ⟨2, 14, 15⟩⟩,
          ⟨.symbol .semicolon, ⟨3, 1, 16⟩⟩, .finish ⟨3, 2, 17⟩] ∧
      tokens ("\u3000\n " ++ "Namaste Dai" ++ ";\n@") true = .error ⟨.unexpected '@', ⟨3, 1, 16⟩⟩ ∧
      tokens "\u3000\n namaste" true = .error ⟨.missingMarker, ⟨2, 2, 3⟩⟩ := by
  have white : ∀ c ∈ "\u3000\n ".toList, isWhite c = true := by simp [isWhite]
  have read : tokens ";\n;" false = .ok [⟨.symbol .semicolon, ⟨1, 1, 0⟩⟩, ⟨.newline, ⟨1, 2, 1⟩⟩,
      ⟨.symbol .semicolon, ⟨2, 1, 2⟩⟩, .finish ⟨2, 2, 3⟩] := by cbv
  have failed : tokens ";\n@" false = .error ⟨.unexpected '@', ⟨2, 1, 2⟩⟩ := by cbv
  obtain ⟨opened, missing⟩ := tokens_marked
  refine ⟨?_, ?_, ?_⟩
  · rw [(opened _ _ white).1, read]
    decide
  · rw [(opened _ _ white).1, failed]
    decide
  · exact missing _ "\u3000\n ".toList "namaste".toList (by simp) white (by simp [isWhite])
      (by decide)

end Source

end DaiScript
