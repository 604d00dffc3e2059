import DaiScript.Proofs.Erasure

/-! What lies ahead decides. A parsing depends neither on the tokens passed before it, nor on the
faults noted before it, nor on what stands behind the first end of input. -/
namespace DaiScript

open Grammar Reading

/-- Both cursors have the same tokens ahead up to the first end of input; behind it, the second has
no fewer than the first. -/
inductive Cursor.Alike : Cursor → Cursor → Prop
  | intro {behind behind' body more more' : List Token} {last : Token} :
      (∀ t ∈ body, t.kind ≠ .finish) → last.kind = .finish → more.length ≤ more'.length →
      Alike (.between behind (body ++ last :: more)) (.between behind' (body ++ last :: more'))

namespace Cursor

theorem Grounded.exists_body {c : Cursor} (h : c.Grounded) :
    ∃ body last more, (∀ t ∈ body, t.kind ≠ .finish) ∧ last.kind = .finish ∧
      c = .between c.behind (body ++ last :: more) := by
  obtain ⟨within, t, ht, finish⟩ := h
  obtain ⟨behind, ahead, beyond⟩ := c
  cases within
  refine ⟨ahead.takeWhile (·.kind != .finish), ?_⟩
  have stopped := List.head?_dropWhile_not (fun t : Token => t.kind != .finish) ahead
  cases rest : ahead.dropWhile (·.kind != .finish) with
  | nil =>
    have all := List.dropWhile_eq_nil_iff.mp rest t ht
    simp [finish] at all
  | cons last more =>
    rw [rest] at stopped
    refine ⟨last, more, ?_, by simpa using stopped, ?_⟩
    · intro t ht
      simpa using List.mem_takeWhile_imp ht
    · rw [← rest, List.takeWhile_append_dropWhile]
      rfl

theorem Passes.takeWhile_eq {c d : Cursor} {used : List Token} (h : c.Passes used d)
    (hd : d.Grounded) (stopped : d.peek.kind = .finish) :
    c.ahead.takeWhile (·.kind != .finish) = used := by
  have inside : ∀ t ∈ used, (t.kind != .finish) = true := by
    intro t ht
    simpa using h.unfinished t ht
  rw [h.ahead, hd.ahead_eq, List.takeWhile_append_of_pos inside,
    List.takeWhile_cons_of_neg (by simp [stopped]), List.append_nil]

theorem Grounded.pastNewlines_eq {c : Cursor} (h : c.Grounded) (solid : c.peek.kind ≠ .newline) :
    c.pastNewlines = c := by
  have shape : c = .between c.behind (c.peek :: c.ahead.tail) := by
    have ahead := h.ahead_eq
    obtain ⟨behind, _, beyond⟩ := c
    cases h.within
    exact congrArg (Cursor.between behind) ahead
  rw [shape, pastNewlines_cons solid]

namespace Alike

variable {c d : Cursor}

theorem grounded (h : c.Alike d) : c.Grounded ∧ d.Grounded := by
  obtain @⟨behind, behind', body, more, more', last, inside, ended, fewer⟩ := h
  exact ⟨⟨rfl, last, by simp [between], ended⟩, rfl, last, by simp [between], ended⟩

theorem peek_eq (h : c.Alike d) : d.peek = c.peek := by
  obtain @⟨behind, behind', body, more, more', last, inside, ended, fewer⟩ := h
  cases body <;> rfl

theorem atEnd_eq (h : c.Alike d) : d.atEnd = c.atEnd := by
  rw [atEnd, atEnd, h.peek_eq]

theorem check_eq (h : c.Alike d) (kind : Kind) : d.check kind = c.check kind := by
  rw [check, check, h.atEnd_eq, h.peek_eq]

theorem advance (h : c.Alike d) (inside : c.peek.kind ≠ .finish) :
    c.advance.Alike d.advance ∧ d.advance.previous = c.advance.previous := by
  obtain @⟨behind, behind', body, more, more', last, unfinished, ended, fewer⟩ := h
  cases body with
  | nil => exact absurd ended inside
  | cons t body =>
    rw [List.forall_mem_cons] at unfinished
    rw [List.cons_append, List.cons_append, advance_cons unfinished.1, advance_cons unfinished.1]
    exact ⟨.intro unfinished.2 ended fewer, rfl⟩

theorem pastNewlines (h : c.Alike d) : c.pastNewlines.Alike d.pastNewlines := by
  obtain @⟨behind, behind', body, more, more', last, unfinished, ended, fewer⟩ := h
  obtain ⟨breaks, rest, rfl, newlines, other⟩ := exists_breaks body
  have inside : ∀ t ∈ rest, t.kind ≠ .finish :=
    fun t ht => unfinished t (List.mem_append_right _ ht)
  have stopped : ∀ more : List Token, ∀ t ∈ (rest ++ last :: more).head?, t.kind ≠ .newline := by
    intro more t ht
    cases rest with
    | nil =>
      cases ht
      rw [ended]
      nofun
    | cons u rest => exact other t ht
  have settled : ∀ behind more, (Cursor.between behind (rest ++ last :: more)).pastNewlines =
      .between behind (rest ++ last :: more) := by
    intro behind more
    cases tokens : rest ++ last :: more with
    | nil => simp at tokens
    | cons t tail => exact pastNewlines_cons (stopped more t (by rw [tokens]; rfl)) behind tail
  rw [List.append_assoc, List.append_assoc, pastNewlines_append newlines,
    pastNewlines_append newlines, settled, settled]
  exact .intro inside ended fewer

theorem reach (h : c.Alike d) : c.reach ≤ d.reach := by
  obtain @⟨behind, behind', body, more, more', last, unfinished, ended, fewer⟩ := h
  simp only [Cursor.reach, between, List.length_append, List.length_cons]
  omega

end Alike

end Cursor

/-! ### Blocks -/

namespace Grammar

section

variable {n : Nat} {s : Stream} (grounded : s.cursor.Grounded)
variable (opening : s.cursor.peek.kind = .symbol .openBrace)
include grounded opening

theorem statementWithin_of_brace : statementWithin (n + 1) s = block (statementWithin n) n s := by
  have still : s.pastNewlines = s := by
    unfold Stream.pastNewlines
    rw [grounded.pastNewlines_eq (by simp [opening])]
  rw [statementWithin_eq grounded, still, opening]
  rfl

theorem block_of_sequence {statement : Parsing Stmt} {body : List Stmt} {d : Stream}
    (run : sequence statement (.symbol .closeBrace) n { s with cursor := s.cursor.advance } =
      .done body d) :
    block statement n s =
      (under (close .closeBrace '\x7d') >>= fun _ => Pure.pure (Stmt.block body)) d := by
  change (under (expect (.symbol .openBrace)) >>= _) s = _
  rw [Process.bind_apply, under_apply, expect_eq grounded (by simp), if_pos opening]
  change (sequence statement (.symbol .closeBrace) n >>= _)
    { s with cursor := s.cursor.advance } = _
  rw [Process.bind_apply, run]

end

end Grammar

/-! ### Recovery -/

namespace Grammar

/-- The token passed last counts only where the search has not come to the end. -/
theorem seekStatement_alike {n m : Nat} (wider : n ≤ m) {c d : Cursor} (h : c.Alike d)
    (previous : c.peek.kind ≠ .finish → d.previous = c.previous) :
    seekStatement n c = .endless ∨ ∃ c' d', seekStatement n c = .done () c' ∧
      seekStatement m d = .done () d' ∧ c'.Alike d' := by
  induction n generalizing m c d with
  | zero => exact .inl rfl
  | succ n ih =>
    obtain ⟨m, rfl⟩ := Nat.exists_eq_add_of_le' (show 1 ≤ m by omega)
    rw [seekStatement_succ, seekStatement_succ, h.atEnd_eq, h.peek_eq]
    by_cases ended : c.peek.kind = .finish
    · have atEnd : c.atEnd = true := beq_iff_eq.mpr ended
      rw [atEnd]
      exact .inr ⟨c, d, rfl, rfl, h⟩
    · rw [previous ended]
      split
      · exact .inr ⟨c, d, rfl, rfl, h⟩
      · obtain ⟨onward, same⟩ := h.advance ended
        exact ih (by omega) onward fun _ => same

private theorem resumed_alike (closing : Kind) {c d : Cursor} (h : c.Alike d) :
    resumed closing c = .endless ∨ ∃ c' d', resumed closing c = .done () c' ∧
      resumed closing d = .done () d' ∧ c'.Alike d' := by
  by_cases ended : c.peek.kind = .finish
  · exact .inr ⟨c, d, resumed_of_end closing ended, resumed_of_end closing (h.peek_eq ▸ ended), h⟩
  unfold resumed
  rw [h.check_eq]
  split
  · exact .inr ⟨c, d, rfl, rfl, h⟩
  · obtain ⟨onward, same⟩ := h.advance ended
    exact seekStatement_alike onward.reach onward fun _ => same

end Grammar

/-! ### Parsing -/

/-- Parsings of the same tokens up to the end, the second of which has noted `earlier` faults
before. -/
def StreamTracking.ahead (earlier : List SyntaxError) : StreamTracking where
  move := id
  cursors := Cursor.Alike
  error e e' := e' = e
  excused e := e = none
  mute := Kind.isIdle
  outer := isInner_of_isIdle
  ended := isIdle_finish
  full := isIdle_iff
  grounded := Cursor.Alike.grounded
  idle h idle := by rwa [h.peek_eq]
  solid h _ := h.peek_eq
  advance h solid := by
    refine (h.advance ?_).1
    intro finish
    rw [finish] at solid
    contradiction
  reject cause h := by
    rw [h.peek_eq]
    exact .inr rfl
  reach h := .of_le rfl h.reach
  notes first second := second = first.map (earlier ++ ·)
  plain excused := by contradiction
  skip h := .inl h.pastNewlines
  natra h := by rw [h.pastNewlines.peek_eq]
  recover := by
    rintro ⟨c, noted⟩ ⟨d, _⟩ e _ closing related rfl rfl
    rw [recover_eq, recover_eq]
    dsimp only
    obtain endless | ⟨c', d', run, run', onward⟩ := resumed_alike closing related
    · rw [endless]
      exact .excusedEndless rfl
    · rw [run, run']
      cases noted with
      | none => exact .failed rfl ⟨onward, rfl⟩
      | some faults => exact .done rfl ⟨onward, by simp⟩

namespace Grammar

theorem sequence_ahead (earlier : List SyntaxError) (closing : Kind) {k k' n n' : Nat}
    (wider : k ≤ k') (longer : n ≤ n') :
    Process.Matches (StreamTracking.ahead earlier).parsings
      (fun body body' => body' = Stmt.transportAll id id body)
      (sequence (statementWithin k) closing n) (sequence (statementWithin k') closing n') :=
  StreamTracking.sequence_matches (StreamTracking.statementWithin_matches (.of_le rfl wider))
    (.statementWithin k) ⟨⟨.noExpression "", .start⟩, Option.some_ne_none _⟩ closing
      (.of_le rfl longer)

section

variable {o o' : Outcome SyntaxError Stream (List Stmt)} {earlier : List SyntaxError}
variable (h : Outcome.Matches (StreamTracking.ahead earlier).parsings
  (fun body body' => body' = Stmt.transportAll id id body) o o') (ends : o ≠ .endless)
include h ends

private theorem result_of_ahead : o'.result = o.result := by
  cases h with
  | done value state =>
    rw [value, Stmt.transportAll_id]
    rfl
  | failed error state =>
    rw [error]
    rfl
  | endless => rfl
  | excusedFailed excused => cases excused
  | excusedEndless => exact absurd rfl ends

private theorem reports_of_ahead (kept : ∀ s, Leaves o s → s.noted ≠ none) :
    reports o' = earlier ++ reports o := by
  have faults : ∀ {s t : Stream}, s.noted ≠ none →
      (StreamTracking.ahead earlier).parsings.state s t → t.faults = earlier ++ s.faults := by
    rintro ⟨c, noted⟩ ⟨d, _⟩ some ⟨-, rfl⟩
    cases noted with
    | none => exact absurd rfl some
    | some faults => rfl
  cases h with
  | done value state => exact faults (kept _ (.inl ⟨_, rfl⟩)) state
  | failed error state =>
    rw [reports, reports, faults (kept _ (.inr ⟨_, rfl⟩)) state, error, List.append_assoc]
  | endless => exact absurd rfl ends
  | excusedFailed excused => cases excused
  | excusedEndless => exact absurd rfl ends

end

theorem reports_sequence_ahead {k k' n n' : Nat} (wider : k ≤ k') (longer : n ≤ n') {c d : Cursor}
    (alike : c.Alike d) (earlier : List SyntaxError) {closing : Kind}
    (ends : sequence (statementWithin k) closing n ⟨c, some []⟩ ≠ .endless) :
    reports (sequence (statementWithin k') closing n' ⟨d, some earlier⟩) =
      earlier ++ reports (sequence (statementWithin k) closing n ⟨c, some []⟩) := by
  have related : (StreamTracking.ahead earlier).parsings.state ⟨c, some []⟩ ⟨d, some earlier⟩ :=
    ⟨alike, by simp [StreamTracking.ahead]⟩
  apply reports_of_ahead (sequence_ahead earlier closing wider longer related) ends
  intro s left
  obtain ⟨more, noted⟩ := ((Agrees.statementWithin k).sequence closing n).grows c [] s left
  rw [noted]
  nofun

end Grammar

/-! ### Programs -/

section

variable {body : List Token} {last : Token} (inside : ∀ t ∈ body, t.kind ≠ .finish)
variable (finish : last.kind = .finish) (more : List Token)
include inside finish

theorem Cursor.alike_ofTokens :
    (Cursor.ofTokens (body ++ [last])).Alike (.ofTokens (body ++ last :: more)) :=
  Cursor.Alike.intro inside finish (Nat.zero_le _)

theorem Program.ofTokens_append :
    ofTokens (body ++ last :: more) = ofTokens (body ++ [last]) := by
  have alike := Cursor.alike_ofTokens inside finish more
  have ended : ∃ t ∈ body ++ [last], t.kind = .finish := ⟨last, by simp, finish⟩
  have related : (StreamTracking.ahead []).parsings.state (.plain (body ++ [last]))
      (.plain (body ++ last :: more)) := ⟨alike, rfl⟩
  exact result_of_ahead (sequence_ahead [] .finish alike.reach alike.reach related)
    (statements_ends (.inr ended) none)

theorem Program.faults_append :
    faults (body ++ last :: more) = faults (body ++ [last]) := by
  have alike := Cursor.alike_ofTokens inside finish more
  have ended : ∃ t ∈ body ++ [last], t.kind = .finish := ⟨last, by simp, finish⟩
  have ended' : ∃ t ∈ body ++ last :: more, t.kind = .finish := ⟨last, by simp, finish⟩
  rw [faults_eq (statements_ends (.inr ended) _), faults_eq (statements_ends (.inr ended') _)]
  exact congrArg some (reports_sequence_ahead alike.reach alike.reach alike []
    (statements_ends (.inr ended) _))

end

/-- The faults of tokens are those that any recovering stream adds when it reads them to the end,
whatever it passed and noted before and whatever its bounds, if they suffice. -/
theorem Program.exists_faults {tokens : List Token} (ended : ∃ t ∈ tokens, t.kind = .finish) :
    ∃ found, faults tokens = some found ∧ ∀ {k n : Nat}, tokens.length ≤ k → tokens.length ≤ n →
      ∀ behind earlier, reports (sequence (statementWithin k) .finish n
        ⟨.between behind tokens, some earlier⟩) = earlier ++ found := by
  have grounded : (Cursor.ofTokens tokens).Grounded := ⟨rfl, ended⟩
  have short : (Cursor.ofTokens tokens).left < tokens.length := grounded.left_lt
  have ends : sequence (statementWithin tokens.length) .finish tokens.length
      ⟨.ofTokens tokens, some []⟩ ≠ .endless :=
    (parses_sequence (formsBelow_statementWithin _) grounded short short).not_endless
  have alike : ∀ behind, (Cursor.ofTokens tokens).Alike (.between behind tokens) := by
    intro behind
    obtain ⟨body, last, more, inside, finish, same⟩ := grounded.exists_body
    cases same
    exact .intro inside finish (Nat.le_refl _)
  refine ⟨_, ?_, fun wider longer behind earlier =>
    reports_sequence_ahead wider longer (alike behind) earlier ends⟩
  rw [faults_eq (statements_ends (.inr ended) _)]
  have spacious : tokens.length ≤ (Cursor.ofTokens tokens).reach := Nat.le_add_right _ 4
  exact congrArg some (reports_sequence_ahead spacious spacious (alike []) [] ends)

end DaiScript
