import DaiScript.Proofs.Spans

/-! The tokens of a text tile it: gaps and spans follow one another from its front to its end, and
every token stands where its span starts. -/
namespace DaiScript

namespace Position

/-- The place behind `text`, by counting its line feeds and the characters behind the last of
them. -/
def behind (text : List Char) : Position :=
  ⟨1 + text.count '\n', 1 + (text.reverse.takeWhile (· != '\n')).length, text.length⟩

theorem behind_append_singleton (text : List Char) (c : Char) :
    behind (text ++ [c]) = (behind text).step c := by
  by_cases line : c = '\n'
  · simp [behind, step, line, Nat.add_assoc]
  · simp [behind, step, line, Nat.add_comm]

theorem start_advance (text : List Char) : start.advance text = behind text := by
  induction text using List.reverseRecOn with
  | nil => rfl
  | append_singleton text c ih =>
    rw [advance_append, ih, behind_append_singleton]
    rfl

/-- The order of places: by line, then by column, then by index. -/
def Before (p q : Position) : Prop :=
  p.line < q.line ∨ p.line = q.line ∧
    (p.column < q.column ∨ p.column = q.column ∧ p.index < q.index)

private theorem behind_lt_append (text more : List Char) (some : more ≠ []) :
    (behind text).index < (behind (text ++ more)).index ∧
      (behind text).Before (behind (text ++ more)) := by
  have positive := List.length_pos_iff.mpr some
  refine ⟨by simp only [behind, List.length_append]; omega, ?_⟩
  by_cases line : '\n' ∈ more
  · left
    have counted := List.count_pos_iff.mpr line
    simp only [behind, List.count_append]
    omega
  · right
    have inside : ∀ c ∈ more.reverse, (c != '\n') = true := by
      intro c hc
      have : c ≠ '\n' := by rintro rfl; exact line (List.mem_reverse.mp hc)
      simpa using this
    simp only [behind, List.count_append, List.count_eq_zero.mpr line, List.reverse_append,
      List.takeWhile_append_of_pos inside, List.length_append, List.length_reverse]
    omega

end Position

namespace Source

open Text

/-- What stands between tokens, in front of `rest`: blanks, and comments that run up to a line feed
or the end. -/
inductive Gap : (gap rest : List Char) → Prop
  | nil {rest : List Char} : Gap [] rest
  | blank {c : Char} {gap rest : List Char} :
      isBlank c = true → Gap gap rest → Gap (c :: gap) rest
  | comment {body gap rest : List Char} :
      (∀ c ∈ body, c ≠ '\n') → (∀ c ∈ (gap ++ rest).head?, c = '\n') → Gap gap rest →
      Gap ('/' :: '/' :: body ++ gap) rest

/-- The tokens tile the text, which follows `before`. -/
inductive Tiles : (before text : List Char) → List Token → Prop
  | last {before gap : List Char} : Gap gap [] → Tiles before gap []
  | token {before gap span rest : List Char} {l : Lexeme} {tokens : List Token} :
      Gap gap (span ++ rest) → Denotes span rest l → Longest span rest →
      ¬['/', '/'] <+: span ++ rest → Tiles (before ++ gap ++ span) rest tokens →
      Tiles before (gap ++ span ++ rest) (⟨l, .behind (before ++ gap)⟩ :: tokens)

theorem Gap.blanks {blanks gap rest : List Char} (blank : ∀ b ∈ blanks, isBlank b = true)
    (h : Gap gap rest) : Gap (blanks ++ gap) rest := by
  induction blanks with
  | nil => exact h
  | cons b blanks ih =>
    rw [List.forall_mem_cons] at blank
    exact .blank blank.1 (ih blank.2)

private theorem Tiles.widen {before piece rest : List Char} {tokens : List Token}
    (joins : ∀ gap rest', gap ++ rest' = rest → Gap gap rest' → Gap (piece ++ gap) rest')
    (h : Tiles (before ++ piece) rest tokens) : Tiles before (piece ++ rest) tokens := by
  cases h with
  | last gap => exact .last (joins _ [] (List.append_nil _) gap)
  | @token _ gap span rest' l tokens gapped denotes longest comment further =>
    have onward : Tiles (before ++ (piece ++ gap) ++ span) rest' tokens := by simpa using further
    have widened := joins gap (span ++ rest') (by simp) gapped
    simpa using Tiles.token widened denotes longest comment onward

theorem behind_advance (before text : List Char) :
    (Position.behind before).advance text = .behind (before ++ text) := by
  rw [← Position.start_advance, ← Position.start_advance, Position.advance_append]

theorem tiles_cut (text before : List Char) (sound : (cut text).fault = none) :
    Tiles before text (place (.behind before) (cut text).pieces) ∧
      covered (cut text).pieces = text := by
  fun_induction cut text generalizing before with
  | case1 => exact ⟨.last .nil, rfl⟩
  | case2 c text cause found => cases sound
  | case3 c text used lexeme found rest ih =>
    obtain ⟨tiles, all⟩ := ih (before ++ c :: text.take used) sound
    have whole : c :: text = c :: text.take used ++ text.drop used := by simp
    constructor
    · rw [whole]
      cases lexeme with
      | none =>
        -- A piece without a lexeme joins the gap that the rest starts with.
        rw [place, behind_advance]
        apply Tiles.widen _ tiles
        intro gap rest' behind gapped
        obtain blank | ⟨body, comment, inside, stop⟩ := front_eq_none found
        · exact gapped.blanks blank
        · rw [comment]
          rw [← behind] at stop
          exact .comment inside stop gapped
      | some l =>
        obtain ⟨foremost, comment⟩ := foremost_front found
        have clear : ¬['/', '/'] <+: c :: text.take used ++ text.drop used := by
          rw [← whole]
          rintro ⟨more, shape⟩
          cases shape
          exact comment ⟨rfl, rfl⟩
        rw [← List.append_nil before] at tiles
        have placed := Tiles.token .nil foremost.denotes foremost.longest clear tiles
        rwa [List.append_nil, ← behind_advance] at placed
    · change c :: text.take used ++ covered rest.pieces = c :: text
      rw [all, ← whole]

theorem Denotes.kind_ne_finish {span rest : List Char} {l : Lexeme} (h : Denotes span rest l) :
    l.kind ≠ .finish := by
  cases h <;> nofun

theorem Tiles.kind_ne_finish {before text : List Char} {tokens : List Token}
    (h : Tiles before text tokens) : ∀ t ∈ tokens, t.kind ≠ .finish := by
  induction h with
  | last => simp
  | token _ denotes _ _ _ ih =>
    rw [List.forall_mem_cons]
    exact ⟨denotes.kind_ne_finish, ih⟩

private theorem Tiles.exists_behind {before text : List Char} {tokens : List Token}
    (h : Tiles before text tokens) :
    ∀ t ∈ tokens, ∃ front, t.position = .behind (before ++ front) := by
  induction h with
  | last => simp
  | @token before gap span rest l tokens _ _ _ _ _ ih =>
    rw [List.forall_mem_cons]
    refine ⟨⟨gap, rfl⟩, ?_⟩
    intro t ht
    obtain ⟨front, placed⟩ := ih t ht
    exact ⟨gap ++ span ++ front, by rw [placed]; simp⟩

private theorem Tiles.pairwise {before text : List Char} {tokens : List Token}
    (h : Tiles before text tokens) :
    (tokens ++ [Token.finish (.behind (before ++ text))]).Pairwise fun a b =>
      a.position.index < b.position.index ∧ a.position.Before b.position := by
  induction h with
  | last => exact List.pairwise_singleton _ _
  | @token before gap span rest l tokens _ denotes _ _ further ih =>
    have whole : before ++ (gap ++ span ++ rest) = before ++ gap ++ span ++ rest := by simp
    rw [whole, List.cons_append, List.pairwise_cons]
    refine ⟨?_, ih⟩
    have later := fun front =>
      Position.behind_lt_append (before ++ gap) (span ++ front) (by simp [denotes.ne_nil])
    intro t ht
    rw [List.mem_append, List.mem_singleton] at ht
    obtain ht | rfl := ht
    · obtain ⟨front, placed⟩ := further.exists_behind t ht
      rw [placed, List.append_assoc]
      exact later front
    · have := later rest
      rwa [← List.append_assoc] at this

theorem tokens_cases (source : String) (marked : Bool) :
    ∃ lead text, source.toList = lead ++ text ∧
      (Source.tokens source marked = tokensFrom (.behind lead) text ∨
        Source.tokens source marked = .error ⟨.missingMarker, .behind lead⟩) := by
  cases marked with
  | false => exact ⟨[], source.toList, rfl, .inl rfl⟩
  | true =>
    have white : source.toList.takeWhile Text.isWhite ++ Text.trimStart source.toList =
        source.toList :=
      List.takeWhile_append_dropWhile
    simp only [Source.tokens, if_true, Position.start_advance, behind_advance]
    split
    · next opened =>
      obtain ⟨text, rest⟩ := List.isPrefixOf_iff_prefix.mp opened
      refine ⟨source.toList.takeWhile Text.isWhite ++ marker, text, ?_, .inl ?_⟩
      · rw [List.append_assoc, rest, white]
      · rw [← rest, List.drop_left]
    · exact ⟨_, _, white.symm, .inr rfl⟩

theorem tiles_of_tokensFrom {before text : List Char} {tokens : List Token}
    (h : tokensFrom (.behind before) text = .ok tokens) :
    ∃ body, tokens = body ++ [.finish (.behind (before ++ text))] ∧ Tiles before text body := by
  simp only [tokensFrom] at h
  split at h
  · cases h
  · next sound =>
    cases h
    obtain ⟨tiles, all⟩ := tiles_cut text before sound
    rw [all, behind_advance]
    exact ⟨_, rfl, tiles⟩

theorem exists_tiles {source : String} {marked : Bool} {tokens : List Token}
    (h : Source.tokens source marked = .ok tokens) :
    ∃ before text body, tokens = body ++ [.finish (.behind (before ++ text))] ∧
      Tiles before text body := by
  obtain ⟨before, text, -, run | run⟩ := tokens_cases source marked
  · rw [run] at h
    exact ⟨before, text, tiles_of_tokensFrom h⟩
  · rw [run] at h
    cases h

theorem exists_body {source : String} {marked : Bool} {tokens : List Token}
    (h : Source.tokens source marked = .ok tokens) :
    ∃ body stop, tokens = body ++ [.finish stop] ∧ ∀ t ∈ body, t.kind ≠ .finish := by
  obtain ⟨before, text, body, rfl, tiles⟩ := exists_tiles h
  exact ⟨body, _, rfl, tiles.kind_ne_finish⟩

/-- The tokens of a text tile it. They end with the end of the text and nowhere before, and their
places grow. -/
theorem tiles_of_tokens {source : String} {tokens : List Token}
    (h : Source.tokens source false = .ok tokens) :
    ∃ body, tokens = body ++ [.finish (.behind source.toList)] ∧ Tiles [] source.toList body ∧
      (∀ t ∈ body, t.kind ≠ .finish) ∧
      tokens.Pairwise fun a b =>
        a.position.index < b.position.index ∧ a.position.Before b.position := by
  have run : tokensFrom (.behind []) source.toList = .ok tokens := h
  obtain ⟨body, rfl, tiles⟩ := tiles_of_tokensFrom run
  exact ⟨body, rfl, tiles, tiles.kind_ne_finish, tiles.pairwise⟩

theorem tiles_of_tokens_mixed :
    let source := "solti\t'\\'é'//\n<="
    let body : List Token :=
      [⟨.keyword .solti, ⟨1, 1, 0⟩⟩, ⟨⟨.text, some (.text "'é"), "'\\'é'"⟩, ⟨1, 7, 6⟩⟩,
        ⟨.newline, ⟨1, 14, 13⟩⟩, ⟨.symbol .lessEqual, ⟨2, 1, 14⟩⟩]
    Source.tokens source false = .ok (body ++ [.finish ⟨2, 3, 16⟩]) ∧
      Tiles [] source.toList body := by
  intro source body
  have read : Source.tokens source false = .ok (body ++ [.finish ⟨2, 3, 16⟩]) := by
    dsimp only [source, body]
    cbv
  obtain ⟨body', shape, tiles, -⟩ := tiles_of_tokens read
  obtain ⟨rfl, -⟩ := List.append_inj' shape rfl
  exact ⟨read, tiles⟩

end Source

end DaiScript
