import DaiScript.Proofs.Fence

/-! Blank lines do not matter. A line break behind another one, or behind a semicolon, is met only
where line breaks are skipped, where `natra` is looked for and where recovery looks for the next
statement, and none of these counts line breaks. So a stream with fewer of them keeps step with the
other: whenever a token is read, both are on the same one. Only where a statement has just ended may
the other stream have line breaks in front of it that the first does not have. -/
namespace DaiScript

open Grammar Reading

/-! ### Fewer line breaks -/

/-- Whether line breaks behind a token of the kind can be left out. -/
def Kind.isPause : Kind → Bool
  | .newline | .symbol .semicolon => true
  | _ => false

/-- The first tokens are the second without some of the line breaks behind a pause, where only line
breaks are in between; `paused` says whether there is a pause in front. -/
inductive BreaksOmitted : Bool → List Token → List Token → Prop
  | nil {paused : Bool} : BreaksOmitted paused [] []
  | keep {paused : Bool} {t : Token} {tokens tokens' : List Token} :
      BreaksOmitted t.kind.isPause tokens tokens' →
        BreaksOmitted paused (t :: tokens) (t :: tokens')
  | drop {t : Token} {tokens tokens' : List Token} :
      t.kind = .newline → BreaksOmitted true tokens tokens' →
        BreaksOmitted true tokens (t :: tokens')

namespace BreaksOmitted

variable {paused : Bool} {tokens tokens' : List Token}

theorem loosen (h : BreaksOmitted paused tokens tokens') : BreaksOmitted true tokens tokens' := by
  cases h with
  | nil => exact .nil
  | keep rest => exact .keep rest
  | drop newline rest => exact .drop newline rest

theorem length_le (h : BreaksOmitted paused tokens tokens') : tokens.length ≤ tokens'.length := by
  induction h with
  | nil => exact Nat.le_refl 0
  | keep _ ih => exact Nat.succ_le_succ ih
  | drop _ _ ih => exact Nat.le_succ_of_le ih

theorem exists_finish (h : BreaksOmitted paused tokens tokens')
    (ended : ∃ t ∈ tokens', t.kind = .finish) :
    ∃ t ∈ tokens, t.kind = .finish := by
  induction h with
  | nil => exact ended
  | @keep _ t _ _ _ ih =>
    rw [List.exists_mem_cons_iff] at ended ⊢
    exact ended.imp_right ih
  | drop newline _ ih =>
    rw [List.exists_mem_cons_iff] at ended
    refine ih (ended.resolve_left ?_)
    simp [newline]

theorem dropWhile (h : BreaksOmitted paused tokens tokens') :
    BreaksOmitted false (tokens.dropWhile (·.kind == .newline))
      (tokens'.dropWhile (·.kind == .newline)) := by
  induction h with
  | nil => exact .nil
  | @keep _ t _ _ rest ih =>
    rw [List.dropWhile_cons, List.dropWhile_cons]
    split
    · exact ih
    · exact .keep rest
  | @drop t _ _ newline _ ih =>
    rw [List.dropWhile_cons_of_pos (by simp [newline])]
    exact ih

private theorem cases_cons {t t' : Token} (h : BreaksOmitted paused (t :: tokens) (t' :: tokens')) :
    t' = t ∧ BreaksOmitted t.kind.isPause tokens tokens' ∨
      paused = true ∧ t'.kind = .newline ∧ BreaksOmitted true (t :: tokens) tokens' := by
  cases h with
  | keep rest => exact .inl ⟨rfl, rest⟩
  | drop newline rest => exact .inr ⟨rfl, newline, rest⟩

end BreaksOmitted

structure Cursor.OmitsBreaks (paused : Bool) (c d : Cursor) : Prop where
  ahead : BreaksOmitted paused c.ahead d.ahead
  grounded : c.Grounded ∧ d.Grounded

namespace Cursor.OmitsBreaks

variable {paused : Bool} {c d : Cursor}

theorem loosen (h : c.OmitsBreaks paused d) : c.OmitsBreaks true d :=
  ⟨h.ahead.loosen, h.grounded⟩

theorem reach (h : c.OmitsBreaks paused d) : c.reach ≤ d.reach :=
  Nat.add_le_add_right h.ahead.length_le 4

theorem pastNewlines (h : c.OmitsBreaks paused d) :
    c.pastNewlines.OmitsBreaks false d.pastNewlines := by
  obtain ⟨_, -, walk, -⟩ := h.grounded.1.passes_pastNewlines
  obtain ⟨_, -, walk', -⟩ := h.grounded.2.passes_pastNewlines
  exact ⟨h.ahead.dropWhile, walk.grounded h.grounded.1, walk'.grounded h.grounded.2⟩

/-- Either both cursors are on the same token and pass it together, or the second is on a line break
that the first does not have. -/
theorem cases (h : c.OmitsBreaks paused d) :
    (d.peek = c.peek ∧
      (c.peek.kind ≠ .finish → c.advance.OmitsBreaks c.peek.kind.isPause d.advance)) ∨
    paused = true ∧ d.peek.kind = .newline ∧ c.OmitsBreaks true d.advance := by
  obtain ⟨hc, hd⟩ := h.grounded
  have ahead := h.ahead
  rw [hc.ahead_eq, hd.ahead_eq] at ahead
  have tail_eq : ∀ {f : Cursor}, f.Grounded → f.peek.kind ≠ .finish →
      f.advance.Grounded ∧ f.advance.ahead = f.ahead.tail := by
    intro f grounded inside
    have step := grounded.passes_advance inside
    refine ⟨step.grounded grounded, ?_⟩
    rw [step.ahead]
    rfl
  obtain ⟨same, rest⟩ | ⟨paused, newline, rest⟩ := ahead.cases_cons
  · refine .inl ⟨same, fun inside => ?_⟩
    obtain ⟨hc', tail⟩ := tail_eq hc inside
    obtain ⟨hd', tail'⟩ := tail_eq hd (same ▸ inside)
    exact ⟨by rwa [tail, tail'], hc', hd'⟩
  · obtain ⟨hd', tail'⟩ := tail_eq hd (by simp [newline])
    refine .inr ⟨paused, newline, ?_, hc, hd'⟩
    rwa [tail', hc.ahead_eq]

theorem peek_eq (h : c.OmitsBreaks false d) : d.peek = c.peek := by
  obtain ⟨same, -⟩ | ⟨paused, -⟩ := h.cases
  · exact same
  · cases paused

theorem advance (h : c.OmitsBreaks false d) (inside : c.peek.kind ≠ .finish) :
    c.advance.OmitsBreaks c.peek.kind.isPause d.advance := by
  obtain ⟨-, onward⟩ | ⟨paused, -⟩ := h.cases
  · exact onward inside
  · cases paused

theorem check_eq (h : c.OmitsBreaks false d) (kind : Kind) : d.check kind = c.check kind := by
  rw [check, check, atEnd, atEnd, h.peek_eq]

end Cursor.OmitsBreaks

private theorem isPause_of_not_stops {kind : Kind} (h : Continuations.stops kind = false) :
    kind.isPause = false ∧ kind ≠ .finish := by
  constructor
  · unfold Kind.isPause
    split
    · exact absurd h (by decide)
    · exact absurd h (by decide)
    · rfl
  · rintro rfl
    exact absurd h (by decide)

def Tracking.breaksOmitted : Tracking where
  move := id
  cursors := Cursor.OmitsBreaks false
  error e e' := e' = e
  excused e := e = none
  mute := Continuations.stops
  outer := Continuations.isInner_of_stops
  ended := Continuations.stops_finish
  grounded h := h.grounded
  idle h mute := by rwa [h.peek_eq]
  solid h _ := h.peek_eq
  advance h solid := by
    obtain ⟨solid, inside⟩ := isPause_of_not_stops solid
    have onward := h.advance inside
    rwa [solid] at onward
  reject cause h := by
    rw [h.peek_eq]
    exact .inr rfl
  reach h := .of_le rfl h.reach

/-! ### Streams -/

structure Stream.OmitsBreaks (paused : Bool) (s t : Stream) : Prop where
  cursors : s.cursor.OmitsBreaks paused t.cursor
  noted : t.noted = s.noted
  recovers : s.noted ≠ none

/-- Both parsings end with the same value, or on the same token with the same fault. The first may
give up earlier. -/
inductive EndsAlike (paused : Bool) :
    Outcome SyntaxError Stream α → Outcome SyntaxError Stream α → Prop
  | done {a : α} {s t : Stream} : s.OmitsBreaks paused t → EndsAlike paused (.done a s) (.done a t)
  | failed {e : SyntaxError} {s t : Stream} :
      s.OmitsBreaks false t → EndsAlike paused (.failed e s) (.failed e t)
  | endless {o : Outcome SyntaxError Stream α} : EndsAlike paused .endless o

def ParsesAlike (p q : Parsing α) : Prop :=
  ∀ ⦃s t : Stream⦄, s.OmitsBreaks false t → EndsAlike true (p s) (q t)

namespace Stream.OmitsBreaks

variable {paused : Bool} {s t : Stream}

theorem loosen (h : s.OmitsBreaks paused t) : s.OmitsBreaks true t :=
  ⟨h.cursors.loosen, h.noted, h.recovers⟩

theorem pastNewlines (h : s.OmitsBreaks paused t) :
    s.pastNewlines.OmitsBreaks false t.pastNewlines :=
  ⟨h.cursors.pastNewlines, h.noted, h.recovers⟩

theorem advance (h : s.OmitsBreaks false t) (inside : s.cursor.peek.kind ≠ .finish) :
    Stream.OmitsBreaks s.cursor.peek.kind.isPause { s with cursor := s.cursor.advance }
      { t with cursor := t.cursor.advance } :=
  ⟨h.cursors.advance inside, h.noted, h.recovers⟩

end Stream.OmitsBreaks

namespace EndsAlike

variable {paused paused' : Bool} {s t : Stream}

theorem bind {p q : Parsing α} {next next' : α → Parsing β} (h : EndsAlike paused (p s) (q t))
    (k : ∀ a s t, s.OmitsBreaks paused t → EndsAlike paused' (next a s) (next' a t)) :
    EndsAlike paused' ((p >>= next) s) ((q >>= next') t) := by
  rw [Process.bind_apply, Process.bind_apply]
  generalize p s = o at h
  generalize q t = o' at h
  cases h with
  | done onward => exact k _ _ _ onward
  | failed front => exact .failed front
  | endless => exact .endless

theorem under_bind {r : Reading α} (h : Process.Matches Tracking.breaksOmitted.readings Eq r r)
    {next next' : α → Parsing β} (front : s.OmitsBreaks false t)
    (k : ∀ a s t, s.OmitsBreaks false t → EndsAlike paused (next a s) (next' a t)) :
    EndsAlike paused ((under r >>= next) s) ((under r >>= next') t) := by
  rw [Process.bind_apply, Process.bind_apply, under_apply, under_apply]
  have outcome := h front.cursors
  generalize r s.cursor = o at outcome
  generalize r t.cursor = o' at outcome
  cases outcome with
  | done same related =>
    cases same
    exact k _ _ _ ⟨related, front.noted, front.recovers⟩
  | failed same related =>
    cases same
    exact .failed ⟨related, front.noted, front.recovers⟩
  | endless => exact .endless
  | excusedFailed excused => cases excused
  | excusedEndless => exact .endless

theorem pass_bind {r : Reading α} {kind : Kind} (inside : kind ≠ .finish) {value : Token → α}
    {fault : Token → SyntaxError}
    (step : ∀ {c : Cursor} {u : Token}, c.Grounded → c.peek = u →
      r c = if u.kind = kind then .done (value u) c.advance else .failed (fault u) c)
    {next next' : α → Parsing β} (front : s.OmitsBreaks false t)
    (k : ∀ a s t, s.OmitsBreaks true t → EndsAlike paused (next a s) (next' a t)) :
    EndsAlike paused ((under r >>= next) s) ((under r >>= next') t) := by
  obtain ⟨hs, ht⟩ := front.cursors.grounded
  rw [Process.bind_apply, Process.bind_apply, under_apply, under_apply, step hs rfl,
    step ht front.cursors.peek_eq]
  by_cases hk : s.cursor.peek.kind = kind
  · rw [if_pos hk, if_pos hk]
    exact k _ _ _ (front.advance (hk ▸ inside)).loosen
  · rw [if_neg hk, if_neg hk]
    exact .failed front

theorem expect_bind {kind : Kind} (inside : kind ≠ .finish) {next next' : Token → Parsing β}
    (front : s.OmitsBreaks false t)
    (k : ∀ u s t, s.OmitsBreaks true t → EndsAlike paused (next u s) (next' u t)) :
    EndsAlike paused ((under (expect kind) >>= next) s) ((under (expect kind) >>= next') t) :=
  pass_bind inside (expect_on inside) front k

theorem close_bind {symbol : Symbol} {delimiter : Char} {next next' : Unit → Parsing β}
    (front : s.OmitsBreaks false t)
    (k : ∀ u s t, s.OmitsBreaks true t → EndsAlike paused (next u s) (next' u t)) :
    EndsAlike paused ((under (close symbol delimiter) >>= next) s)
      ((under (close symbol delimiter) >>= next') t) :=
  pass_bind (by simp) close_on front k

end EndsAlike

private theorem parsesAlike_simple : ParsesAlike (under simple) (under simple) := by
  intro s t front
  have read : Process.Matches Tracking.breaksOmitted.readings Eq unended unended :=
    Tracking.unended_matches_same rfl (fun _ => rfl) fun related => related.check_eq _
  rw [simple_eq, under_bind]
  apply EndsAlike.under_bind read front
  intro a s t front
  rw [under_bind]
  exact EndsAlike.expect_bind (by simp) front fun _ _ _ onward => .done onward

/-! ### Conditionals -/

section

variable {statement statement' : Parsing Stmt} (h : ParsesAlike statement statement')
include h

private theorem endsAlike_otherwise {s t : Stream} (test : Expr) (consequent : Stmt)
    (onward : s.OmitsBreaks true t) :
    EndsAlike true (otherwise statement test consequent s)
      (otherwise statement' test consequent t) := by
  obtain ⟨hs, ht⟩ := onward.cursors.grounded
  rw [otherwise_eq hs, otherwise_eq ht, onward.cursors.pastNewlines.peek_eq]
  split
  · next natra =>
    have front := onward.pastNewlines.advance (by simp [Stream.pastNewlines, natra])
    rw [Stream.pastNewlines, natra] at front
    exact (h front).bind fun _ _ _ onward => .done onward
  · exact .done onward

private theorem parsesAlike_branch : ParsesAlike (branch statement) (branch statement') := by
  intro s t front
  rw [branch_eq, branch_eq]
  apply EndsAlike.under_bind (Tracking.expression_matches_same rfl) front
  intro test s t front
  apply EndsAlike.under_bind (Tracking.expect_matches_same rfl rfl) front
  intro _ s t front
  exact (h front).bind fun consequent _ _ onward => endsAlike_otherwise h test consequent onward

end

/-! ### Recovery -/

/-- The search for the next statement passes line breaks one at a time and stops behind a semicolon,
so it makes no difference how many there are behind either. -/
theorem seekStatement_omitsBreaks {n m : Nat} {paused : Bool} {c d : Cursor}
    (h : c.OmitsBreaks paused d) (enough : c.ahead.length < n) (enough' : d.ahead.length < m)
    (previous : c.previous.kind = .symbol .semicolon ↔ d.previous.kind = .symbol .semicolon) :
    ∃ c' d', seekStatement n c = .done () c' ∧ seekStatement m d = .done () d' ∧
      c'.OmitsBreaks true d' := by
  have shorter : ∀ {f : Cursor}, f.Grounded → f.peek.kind ≠ .finish →
      f.advance.ahead.length < f.ahead.length := by
    intro f grounded inside
    rw [(grounded.passes_advance inside).ahead]
    simp
  -- The second search may take more steps than the first, so the induction is on its bound.
  induction m generalizing n paused c d with
  | zero => omega
  | succ m ih =>
    obtain ⟨k, rfl⟩ := Nat.exists_eq_add_of_le' (show 1 ≤ n by omega)
    obtain ⟨hc, hd⟩ := h.grounded
    by_cases semicolon : c.previous.kind = .symbol .semicolon
    · rw [seekStatement_succ, seekStatement_succ, semicolon, previous.mp semicolon]
      simp only [beq_self_eq_true, Bool.or_true, Bool.true_or, if_true]
      exact ⟨c, d, rfl, rfl, h.loosen⟩
    have semicolon' : (d.previous.kind == .symbol .semicolon) = false :=
      beq_eq_false_iff_ne.mpr (mt previous.mpr semicolon)
    obtain ⟨same, onward⟩ | ⟨-, newline, onward⟩ := h.cases
    · rw [seekStatement_succ, seekStatement_succ, beq_eq_false_iff_ne.mpr semicolon, semicolon',
        Cursor.atEnd, Cursor.atEnd, same]
      split
      · exact ⟨c, d, rfl, rfl, h.loosen⟩
      · next going =>
        have inside : c.peek.kind ≠ .finish := by
          intro finish
          simp [finish] at going
        have inside' : d.peek.kind ≠ .finish := same ▸ inside
        have short := shorter hc inside
        have short' := shorter hd inside'
        apply ih (onward inside) (by omega) (by omega)
        rw [hc.previous_advance inside, hd.previous_advance inside', same]
    · have inside : d.peek.kind ≠ .finish := by simp [newline]
      have going : seekStatement (m + 1) d = seekStatement m d.advance := by
        rw [seekStatement_succ, semicolon', Cursor.atEnd, newline]
        rfl
      have short := shorter hd inside
      rw [going]
      apply ih onward enough (by omega)
      rw [hd.previous_advance inside, newline]
      simp [semicolon]

private theorem resumed_omitsBreaks (closing : Kind) {c d : Cursor} (h : c.OmitsBreaks false d) :
    ∃ c' d', resumed closing c = .done () c' ∧ resumed closing d = .done () d' ∧
      c'.OmitsBreaks true d' := by
  by_cases ended : c.peek.kind = .finish
  · exact ⟨c, d, resumed_of_end closing ended, resumed_of_end closing (h.peek_eq ▸ ended), h.loosen⟩
  unfold resumed
  rw [h.check_eq]
  split
  · exact ⟨c, d, rfl, rfl, h.loosen⟩
  · obtain ⟨hc, hd⟩ := h.grounded
    apply seekStatement_omitsBreaks (h.advance ended) (Nat.lt_add_of_pos_right (by decide))
      (Nat.lt_add_of_pos_right (by decide))
    rw [hc.previous_advance ended, hd.previous_advance (h.peek_eq ▸ ended), h.peek_eq]

private theorem recover_omitsBreaks (fault : SyntaxError) (closing : Kind) {s t : Stream}
    (front : s.OmitsBreaks false t) :
    ∃ s' t', recover fault closing s = .done () s' ∧ recover fault closing t = .done () t' ∧
      s'.OmitsBreaks true t' := by
  obtain ⟨c, _⟩ := s
  obtain ⟨d, noted⟩ := t
  obtain ⟨related, rfl, recovers⟩ := front
  dsimp only at related recovers
  obtain ⟨c', d', run, run', onward⟩ := resumed_omitsBreaks closing related
  rw [recover_eq, recover_eq]
  dsimp only
  rw [run, run']
  cases noted with
  | none => exact absurd rfl recovers
  | some faults => exact ⟨_, _, rfl, rfl, onward, rfl, Option.some_ne_none _⟩

/-! ### Sequences -/

section

variable {statement statement' : Parsing Stmt} (h : ParsesAlike statement statement')
include h

private theorem endsAlike_round {closing : Kind} {more more' : Parsing (List Stmt)} {s t : Stream}
    (k : ∀ {s t : Stream}, s.OmitsBreaks true t → EndsAlike false (more s) (more' t))
    (front : s.OmitsBreaks false t) :
    EndsAlike false (Grammar.round statement closing more s)
      (Grammar.round statement' closing more' t) := by
  rw [round_eq, round_eq]
  have outcome := h front
  generalize statement s = o at outcome
  generalize statement' t = o' at outcome
  cases outcome with
  | endless => exact .endless
  | done onward => exact (k onward).bind fun _ _ _ front => .done front
  | @failed e s t front =>
    obtain ⟨s', t', run, run', onward⟩ := recover_omitsBreaks e closing front
    dsimp only
    rw [Process.bind_apply, Process.bind_apply, run, run']
    exact k onward

theorem endsAlike_sequence (closing : Kind) {n m : Nat} (wider : n ≤ m) {s t : Stream}
    (onward : s.OmitsBreaks true t) :
    EndsAlike false (sequence statement closing n s) (sequence statement' closing m t) := by
  induction n generalizing m s t with
  | zero => exact .endless
  | succ n ih =>
    obtain ⟨m, rfl⟩ := Nat.exists_eq_add_of_le' (show 1 ≤ m by omega)
    obtain ⟨hs, ht⟩ := onward.cursors.grounded
    have front := onward.pastNewlines
    rw [sequence_eq hs, sequence_eq ht, front.cursors.check_eq, Cursor.atEnd, Cursor.atEnd,
      front.cursors.peek_eq]
    split
    · exact .done front
    · exact endsAlike_round h (fun onward => ih (by omega) onward) front

private theorem parsesAlike_block {n m : Nat} (wider : n ≤ m) :
    ParsesAlike (block statement n) (block statement' m) := by
  intro s t front
  apply EndsAlike.expect_bind (by simp) front
  intro _ s t onward
  apply (endsAlike_sequence h (.symbol .closeBrace) wider onward).bind
  intro body s t front
  exact EndsAlike.close_bind front fun _ _ _ onward => .done onward

end

private theorem parsesAlike_statementWithin {k k' : Nat} (wider : k ≤ k') :
    ParsesAlike (statementWithin k) (statementWithin k') := by
  induction k generalizing k' with
  | zero => exact fun _ _ _ => .endless
  | succ k ih =>
    obtain ⟨k', rfl⟩ := Nat.exists_eq_add_of_le' (show 1 ≤ k' by omega)
    have inner : ParsesAlike (statementWithin k) (statementWithin k') := ih (by omega)
    intro s t front
    obtain ⟨hs, ht⟩ := front.cursors.grounded
    rw [statementWithin_eq hs, statementWithin_eq ht]
    replace front := front.pastNewlines
    generalize s.pastNewlines = s at front
    generalize t.pastNewlines = t at front
    have keyword : ∀ {p q : Parsing Stmt} {word : Keyword}, s.cursor.peek.kind = .keyword word →
        ParsesAlike p q → EndsAlike true ((under advance >>= fun _ => p) s)
          ((under advance >>= fun _ => q) t) := by
      intro p q word hk keep
      have onward := front.advance (by simp [hk])
      rw [hk] at onward
      exact keep onward
    rw [front.cursors.peek_eq]
    generalize hk : s.cursor.peek.kind = kind
    unfold entered
    split
    · exact keyword hk (parsesAlike_branch inner)
    · apply keyword hk
      intro s t front
      apply EndsAlike.under_bind (Tracking.expression_matches_same rfl) front
      intro test s t front
      exact (inner front).bind fun _ _ _ onward => .done onward
    · exact parsesAlike_block inner (by omega) front
    · exact parsesAlike_simple front

/-! ### Programs -/

private theorem endsAlike_statements {tokens tokens' : List Token}
    (h : BreaksOmitted false tokens tokens') (ended : ∃ t ∈ tokens', t.kind = .finish) :
    EndsAlike false (statements .finish (.recovering tokens))
      (statements .finish (.recovering tokens')) := by
  have related : (Cursor.ofTokens tokens).OmitsBreaks false (.ofTokens tokens') :=
    ⟨h, ⟨rfl, h.exists_finish ended⟩, rfl, ended⟩
  have front : Stream.OmitsBreaks false (.recovering tokens) (.recovering tokens') :=
    ⟨related, rfl, Option.some_ne_none _⟩
  exact endsAlike_sequence (parsesAlike_statementWithin related.reach) .finish related.reach
    front.loosen

theorem EndsAlike.same {paused : Bool} {o o' : Outcome SyntaxError Stream α}
    (h : EndsAlike paused o o') (ends : o ≠ .endless) :
    o.result = o'.result ∧ reports o = reports o' := by
  have faults : ∀ {paused : Bool} {s t : Stream}, s.OmitsBreaks paused t → s.faults = t.faults := by
    intro paused s t related
    rw [Stream.faults, Stream.faults, related.noted]
  cases h with
  | done related => exact ⟨rfl, faults related⟩
  | failed related => exact ⟨rfl, congrArg (· ++ _) (faults related)⟩
  | endless => exact absurd rfl ends

/-- What a plain stream reads can be told from a recovering one: it is the first fault that is
reported, and without any the program itself. -/
theorem Program.ofTokens_cases {tokens : List Token} (ended : ∃ t ∈ tokens, t.kind = .finish) :
    (∃ program, ofTokens tokens = some (.ok program) ∧
      (statements .finish (.recovering tokens)).result = some (.ok program) ∧
      reports (statements .finish (.recovering tokens)) = []) ∨
    ∃ fault more, ofTokens tokens = some (.error fault) ∧
      reports (statements .finish (.recovering tokens)) = fault :: more := by
  have agrees := agrees_statements .finish
  unfold ofTokens
  cases run : statements .finish (.plain tokens) with
  | endless => exact absurd run (statements_ends (.inr ended) none)
  | done program d =>
    have recovering : statements .finish (.recovering tokens) = .done program ⟨d.cursor, some []⟩ :=
      (agrees.done run).2 []
    rw [recovering]
    exact .inl ⟨program, rfl, rfl, rfl⟩
  | failed fault d =>
    obtain ⟨more, reported⟩ := (agrees.failed run).2 [] (statements_ends (.inr ended) (some []))
    exact .inr ⟨fault, more, rfl, reported.symm⟩

theorem Program.eq_of_breaksOmitted {tokens tokens' : List Token}
    (h : BreaksOmitted false tokens tokens') (ended : ∃ t ∈ tokens', t.kind = .finish) :
    ofTokens tokens = ofTokens tokens' ∧ faults tokens = faults tokens' := by
  have fewer := h.exists_finish ended
  have ends := statements_ends (.inr fewer) (some [])
  obtain ⟨result, reported⟩ := (endsAlike_statements h ended).same ends
  constructor
  · obtain ⟨program, read, recovered, sound⟩ | ⟨fault, more, read, faulty⟩ := ofTokens_cases fewer
    · obtain ⟨program', read', recovered', -⟩ | ⟨fault', more', -, faulty'⟩ := ofTokens_cases ended
      · rw [read, read', ← recovered, ← recovered', result]
      · rw [← reported, sound] at faulty'
        cases faulty'
    · obtain ⟨program', -, -, sound'⟩ | ⟨fault', more', read', faulty'⟩ := ofTokens_cases ended
      · rw [← reported, faulty] at sound'
        cases sound'
      · rw [← reported, faulty] at faulty'
        cases faulty'
        rw [read, read']
  · rw [faults_eq ends, faults_eq (statements_ends (.inr ended) (some []))]
    exact congrArg some reported

/-- The tokens without the line breaks that follow a token of such a kind with only line breaks in
between; `following` says whether there is one in front. -/
def Token.withoutBreaks (behind : Kind → Bool) (following : Bool) : List Token → List Token
  | [] => []
  | t :: tokens =>
    if following && t.kind == .newline then withoutBreaks behind true tokens
    else t :: withoutBreaks behind (behind t.kind) tokens

/-- Of line breaks in a row only the first is left, and behind a semicolon none is. -/
def Token.condensed (tokens : List Token) : List Token :=
  withoutBreaks (· == .symbol .semicolon) false (withoutBreaks (· == .newline) false tokens)

theorem breaksOmitted_withoutBreaks {behind : Kind → Bool}
    (pauses : ∀ kind, behind kind = true → kind.isPause = true) {following paused : Bool}
    (allowed : following = true → paused = true) (tokens : List Token) :
    BreaksOmitted paused (Token.withoutBreaks behind following tokens) tokens := by
  induction tokens generalizing following paused with
  | nil => exact .nil
  | cons t tokens ih =>
    unfold Token.withoutBreaks
    split
    · next left =>
      rw [Bool.and_eq_true, beq_iff_eq] at left
      obtain rfl := allowed left.1
      exact .drop left.2 (ih fun _ => rfl)
    · exact .keep (ih (pauses t.kind))

/-- Blank lines do not matter: tokens with an end of input are read to the same program or the same
error, and have the same faults, if of line breaks in a row only the first is left, and behind a
semicolon none. -/
theorem Program.blank_lines_immaterial {tokens : List Token}
    (ended : ∃ t ∈ tokens, t.kind = .finish) :
    (∃ read, ofTokens tokens = some read ∧ ofTokens (Token.condensed tokens) = some read) ∧
      ∃ found, faults tokens = some found ∧ faults (Token.condensed tokens) = some found := by
  have breaks : ∀ kind : Kind, (kind == .newline) = true → kind.isPause = true := by
    intro kind same
    rw [beq_iff_eq.mp same]
    rfl
  have semicolons : ∀ kind : Kind, (kind == .symbol .semicolon) = true → kind.isPause = true := by
    intro kind same
    rw [beq_iff_eq.mp same]
    rfl
  have collapsed : BreaksOmitted false (Token.withoutBreaks (· == .newline) false tokens) tokens :=
    breaksOmitted_withoutBreaks breaks id tokens
  have condensed : BreaksOmitted false (Token.condensed tokens) _ :=
    breaksOmitted_withoutBreaks semicolons id _
  obtain ⟨read, found⟩ := eq_of_breaksOmitted collapsed ended
  obtain ⟨read', found'⟩ := eq_of_breaksOmitted condensed (collapsed.exists_finish ended)
  obtain ⟨result, spelled⟩ := Option.ne_none_iff_exists'.mp (ofTokens_ne_none (.inr ended))
  obtain ⟨all, listed⟩ := Option.ne_none_iff_exists'.mp (faults_ne_none (.inr ended))
  exact ⟨⟨result, spelled, (read'.trans read).trans spelled⟩, all, listed,
    (found'.trans found).trans listed⟩

theorem Program.blank_lines_immaterial_natra :
    let place (l : Lexeme) (i : Nat) : Token := ⟨l, ⟨1, i + 1, i⟩⟩
    let start : List Token := [place (.keyword .yadi) 0, place (.keyword .thik) 1,
      place (.keyword .bhane) 2, place (.symbol .openBrace) 3, place (.symbol .closeBrace) 4,
      place .newline 5]
    let tokens := start ++ [place .newline 6, place (.keyword .natra) 7, place (.keyword .lekh) 8,
      place (.symbol .semicolon) 9, place .newline 10, place .newline 11, place (.symbol .plus) 12,
      place .newline 13, place .newline 14, place (.keyword .lekh) 15,
      place (.symbol .semicolon) 16, place .newline 17, .finish .start]
    let dense := start ++ [place (.keyword .natra) 7, place (.keyword .lekh) 8,
      place (.symbol .semicolon) 9, place (.symbol .plus) 12, place .newline 13,
      place (.keyword .lekh) 15, place (.symbol .semicolon) 16, .finish .start]
    let fault : SyntaxError := ⟨.noExpression "'+'", ⟨1, 13, 12⟩⟩
    Token.condensed tokens = dense ∧
      ofTokens tokens = some (.error fault) ∧ ofTokens dense = some (.error fault) ∧
      faults tokens = some [fault] ∧ faults dense = some [fault] := by
  intro place start tokens dense fault
  have same : Token.condensed tokens = dense := by decide
  have read : ofTokens tokens = some (.error fault) := by
    dsimp only [place, start, tokens, fault]
    cbv
  have listed : faults tokens = some [fault] := by
    dsimp only [place, start, tokens, fault]
    cbv
  have ended : ∃ t ∈ tokens, t.kind = .finish := ⟨.finish .start, by simp [tokens], rfl⟩
  obtain ⟨⟨_, read', spelled⟩, _, listed', found⟩ := blank_lines_immaterial ended
  rw [same, ← read', read] at spelled
  rw [same, ← listed', listed] at found
  exact ⟨same, read, spelled, listed, found⟩

end DaiScript
