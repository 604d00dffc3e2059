import Mathlib
import DaiScript.Proofs.Parsings

/-! Every statement that is read without a fault is formed by the tokens that were passed. Streams
that recover are treated along with those that do not: both end, since each round of a sequence
leaves fewer tokens in front of the end. -/
namespace DaiScript.Grammar

open Reading

/-! ### Recovery -/

private theorem reads_seekStatement {bound : Nat} {c : Cursor} (grounded : c.Grounded)
    (enough : c.left < bound) : Reads (seekStatement bound) c fun _ _ => True := by
  induction bound generalizing c with
  | zero => omega
  | succ bound ih =>
    apply Reads.read_bind
    split
    · exact .pure trivial
    · next going =>
      have inside : c.peek.kind ≠ .finish := by
        intro h
        simp [Cursor.atEnd, h] at going
      apply Reads.advance_bind grounded inside
      intro d walk
      have shorter := walk.left_eq
      rw [List.length_singleton] at shorter
      exact ih (walk.grounded grounded) (by omega)

theorem reads_synchronize {c : Cursor} (grounded : c.Grounded) :
    Reads synchronize c fun used _ => c.peek.kind ≠ .finish → used ≠ [] := by
  have seek : ∀ {d : Cursor}, d.Grounded → Reads (bounded seekStatement) d fun _ _ => True := by
    intro d hd
    have run : bounded seekStatement d = seekStatement d.reach d := rfl
    have short := hd.left_lt
    exact .congr run (reads_seekStatement hd (by unfold Cursor.reach; omega))
  by_cases inside : c.peek.kind = .finish
  · have still : c.advance = c := by simp [Cursor.advance, Cursor.atEnd, inside]
    have run : synchronize c = bounded seekStatement c := by
      change bounded seekStatement c.advance = _
      rw [still]
    apply Ends.congr run
    apply (seek grounded).mono
    intro used _ _ outside
    exact absurd inside outside
  · apply Reads.advance_bind grounded inside
    intro d walk
    apply (seek (walk.grounded grounded)).mono
    intro used _ _ _
    simp

def note (fault : SyntaxError) : Parsing Unit := do
  match ← Process.read Stream.noted with
  | some faults => Process.modify fun s => { s with noted := some (faults ++ [fault]) }
  | none => Process.fail fault

theorem parses_note {fault : SyntaxError} {s d : Stream} {used : List Token}
    (walk : s.Passes used d) (blamed : ∃ t ∈ s.cursor.tokens, fault.Blames t) :
    Parses (note fault) d fun more _ => s.noted ≠ none ∧ more = [] := by
  apply Parses.read_bind
  split
  · next faults noted =>
    have same : s.noted ≠ none := by
      rw [ne_eq, ← walk.noted_eq_none, noted]
      simp
    exact ⟨[], ⟨.refl d.cursor, by simp [noted]⟩, same, rfl⟩
  · obtain ⟨t, ht, names⟩ := blamed
    exact ⟨⟨[], .refl d⟩, t, walk.cursor.tokens_eq ▸ ht, names⟩

private theorem parses_recover {fault : SyntaxError} {closing : Kind} {s : Stream}
    (grounded : s.cursor.Grounded) (blamed : ∃ t ∈ s.cursor.tokens, fault.Blames t) :
    Parses (recover fault closing) s fun used _ => s.noted ≠ none ∧
      (s.cursor.check closing = false → s.cursor.peek.kind ≠ .finish → used ≠ []) := by
  apply Parses.read_under_bind
  split
  · next resting =>
    apply (parses_note (.refl s) blamed).mono
    intro used _ noted
    exact ⟨noted.1, by simp [resting]⟩
  · apply (Parses.under grounded (reads_synchronize grounded)).bind
    intro _ used d walk moved
    apply (parses_note walk blamed).mono
    intro more _ noted
    refine ⟨noted.1, ?_⟩
    intro _ inside
    simp [moved inside]

/-! ### Statements -/

theorem Forms.ne_nil {used : List Token} {a : Stmt} (h : Forms used (.stmt a)) : used ≠ [] := by
  cases h <;> simp

theorem reads_semicolon {c : Cursor} (grounded : c.Grounded) :
    Reads semicolon c fun used _ => ∃ t, used = [t] ∧ t.kind = .symbol .semicolon := by
  apply (Reads.expect grounded (by simp)).bind
  intro t used d walk hused
  exact .pure ⟨t, by simpa using hused.1, hused.2⟩

theorem reads_ended {c : Cursor} (grounded : c.Grounded) (a : Stmt) (used : List Token)
    (forms : ∀ t : Token, t.kind = .symbol .semicolon → Forms (used ++ [t]) (.stmt a)) :
    Reads (semicolon >>= fun _ => Pure.pure a) c fun more b => Forms (used ++ more) (.stmt b) := by
  apply (reads_semicolon grounded).bind
  intro _ ending d walk hending
  obtain ⟨t, rfl, hk⟩ := hending
  exact .pure (by simpa using forms t hk)

theorem reads_simple {c : Cursor} (grounded : c.Grounded) :
    Reads simple c fun used a => Forms used (.stmt a) := by
  apply Reads.peek_bind
  split
  · next hk =>
    apply Reads.advance_bind grounded (by simp [hk])
    intro d walk
    have hd := walk.grounded grounded
    apply (Reads.expect hd (by simp)).bind
    intro name used d' walk' hname
    obtain ⟨rfl, hname⟩ := hname
    have hd' := walk'.grounded hd
    apply Reads.accept_bind hd' (by simp)
    · intro equals f further hequals
      have hf := further.grounded hd'
      simp only [bind_assoc, map_eq_pure_bind, pure_bind]
      apply (reads_expression hf).bind
      intro e first f' further' he
      have rest := reads_ended (further'.grounded hf)
        (.declare name.lexeme.nameText (some e) c.peek.position)
        (c.peek :: name :: equals :: first) (fun t ht => .define hk hname hequals he ht)
      simpa using rest
    · intro _
      simp only [pure_bind]
      have rest := reads_ended hd' (.declare name.lexeme.nameText none c.peek.position)
        [c.peek, name] (fun t ht => .declare hk hname ht)
      simpa using rest
  · next hk =>
    apply Reads.advance_bind grounded (by simp [hk])
    intro d walk
    have hd := walk.grounded grounded
    apply Reads.read_bind
    split
    · simp only [pure_bind]
      exact reads_ended hd _ [c.peek] (fun t ht => .printNone hk ht)
    · apply (reads_layer_items hd).bind
      intro es first d' walk' hes
      have rest := reads_ended (walk'.grounded hd) (.print es c.peek.position)
        (c.peek :: first) (fun t ht => .print hk hes ht)
      simpa using rest
  · next hk =>
    apply Reads.advance_bind grounded (by simp [hk])
    intro d walk
    exact reads_ended (walk.grounded grounded) _ [c.peek] (fun t ht => .leave hk ht)
  · next hk =>
    apply Reads.advance_bind grounded (by simp [hk])
    intro d walk
    exact reads_ended (walk.grounded grounded) _ [c.peek] (fun t ht => .next hk ht)
  · apply (reads_expression grounded).bind
    intro e first d walk he
    exact reads_ended (walk.grounded grounded) _ first (fun t ht => .expr he ht)

/-- The parsing ends wherever fewer than `k` tokens are left, passes a token if it succeeds, and
what a stream that does not recover returns is formed by what was passed. -/
def FormsBelow (k : Nat) (statement : Parsing Stmt) : Prop :=
  ∀ s : Stream, s.cursor.Grounded → s.cursor.left < k →
    Parses statement s fun used a => used ≠ [] ∧ (s.noted = none → Forms used (.stmt a))

theorem Forms.after_newlines {breaks used : List Token} {a : Stmt}
    (newlines : ∀ b ∈ breaks, b.kind = .newline) (h : Forms used (.stmt a)) :
    Forms (breaks ++ used) (.stmt a) := by
  induction breaks with
  | nil => exact h
  | cons b breaks ih =>
    rw [List.forall_mem_cons] at newlines
    exact .newline newlines.1 (ih newlines.2)

/-- A statement that fails and the recovery behind it pass a token together: either the statement
moved to the closing token, or the search for the next one moves. -/
theorem parses_recover_behind {s d : Stream} {used : List Token} {fault : SyntaxError}
    {closing : Kind} (grounded : s.cursor.Grounded) (walk : s.Passes used d)
    (inside : s.cursor.peek.kind ≠ .finish) (notClosed : s.cursor.check closing = false)
    (blamed : ∃ t ∈ s.cursor.tokens, fault.Blames t) :
    Parses (recover fault closing) d fun more _ => s.noted ≠ none ∧ used ++ more ≠ [] := by
  apply (parses_recover (walk.cursor.grounded grounded) (walk.cursor.tokens_eq ▸ blamed)).mono
  intro more _ h
  refine ⟨mt walk.noted_eq_none.mpr h.1, ?_⟩
  intro none
  obtain ⟨rfl, rfl⟩ := List.append_eq_nil_iff.mp none
  rw [walk.cursor.eq_of_nil] at h
  exact h.2 notClosed inside rfl

def otherwise (statement : Parsing Stmt) (test : Expr) (consequent : Stmt) : Parsing Stmt := do
  let here ← Process.read Stream.cursor
  under skipNewlines
  match ← under (accept? (.keyword .natra)) with
  | some _ =>
    let alternate ← statement
    return .branch test consequent (some alternate)
  | none =>
    under (backTo here)
    return .branch test consequent none

theorem branch_eq (statement : Parsing Stmt) :
    branch statement = (do
      let test ← under expression
      let _ ← under (expect (.keyword .bhane))
      let consequent ← statement
      otherwise statement test consequent) := rfl

theorem otherwise_of_endless {statement : Parsing Stmt} {test : Expr} {consequent : Stmt}
    {s : Stream} (endless : under skipNewlines s = .endless) :
    otherwise statement test consequent s = .endless := by
  change (under skipNewlines >>= _) s = _
  rw [Process.bind_apply, endless]

theorem otherwise_of_declined {statement : Parsing Stmt} {test : Expr} {consequent : Stmt}
    {s d f : Stream} (skipped : under skipNewlines s = .done () d)
    (declined : under (accept? (.keyword .natra)) d = .done none f) :
    otherwise statement test consequent s =
      .done (.branch test consequent none) { f with cursor := s.cursor } := by
  change (under skipNewlines >>= _) s = _
  rw [Process.bind_apply, skipped]
  change (under (accept? (.keyword .natra)) >>= _) d = _
  rw [Process.bind_apply, declined]
  rfl

theorem otherwise_of_accepted {statement : Parsing Stmt} {test : Expr} {consequent : Stmt}
    {natra : Token} {s d f : Stream} (skipped : under skipNewlines s = .done () d)
    (accepted : under (accept? (.keyword .natra)) d = .done (some natra) f) :
    otherwise statement test consequent s =
      (statement >>= fun alternate => Pure.pure (.branch test consequent (some alternate))) f := by
  change (under skipNewlines >>= _) s = _
  rw [Process.bind_apply, skipped]
  change (under (accept? (.keyword .natra)) >>= _) d = _
  rw [Process.bind_apply, accepted]

/-- Looking through line breaks for `natra` in vain leaves no trace. -/
theorem otherwise_eq {statement : Parsing Stmt} {test : Expr} {consequent : Stmt} {s : Stream}
    (grounded : s.cursor.Grounded) :
    otherwise statement test consequent s =
      if s.cursor.pastNewlines.peek.kind = .keyword .natra then
        (statement >>= fun alternate => Pure.pure (.branch test consequent (some alternate)))
          { s with cursor := s.cursor.pastNewlines.advance }
      else .done (.branch test consequent none) s := by
  obtain ⟨breaks, -, walk, -⟩ := grounded.passes_pastNewlines
  have skipped := under_skipNewlines_eq grounded
  have inside : Kind.keyword .natra ≠ .finish := by simp
  have looked := accept?_eq (walk.grounded grounded) inside
  by_cases hk : s.cursor.pastNewlines.peek.kind = .keyword .natra
  · rw [if_pos hk] at looked ⊢
    have natra := under_of_done (s := s.pastNewlines) looked
    exact otherwise_of_accepted skipped natra
  · rw [if_neg hk] at looked ⊢
    have other := under_of_done (s := s.pastNewlines) looked
    rw [otherwise_of_declined skipped other]
    rfl

section

variable {k : Nat} {statement : Parsing Stmt} (below : FormsBelow k statement)
include below

theorem parses_sequence {closing : Kind} {bound : Nat} {s : Stream}
    (grounded : s.cursor.Grounded) (fits : s.cursor.left < k) (enough : s.cursor.left < bound) :
    Parses (sequence statement closing bound) s fun used body =>
      s.noted = none → ∃ first breaks, used = first ++ breaks ∧ Forms first (.sequence body) ∧
        ∀ b ∈ breaks, b.kind = .newline := by
  induction bound generalizing s with
  | zero => omega
  | succ bound ih =>
    apply Parses.skip_bind grounded
    intro breaks newlines walk
    have hd := walk.cursor.grounded grounded
    have start := walk.cursor.left_eq
    apply Parses.read_under_bind
    split
    · exact .pure fun _ => ⟨[], breaks, by simp, .nil, newlines⟩
    · next going =>
      rw [Bool.or_eq_true, not_or] at going
      have inside : s.pastNewlines.cursor.peek.kind ≠ .finish := by
        simpa [Cursor.atEnd] using going.1
      have spec := below s.pastNewlines hd (by omega)
      cases run : statement s.pastNewlines with
      | endless => exact absurd run spec.not_endless
      | done a d =>
        obtain ⟨used, walk', moved, forms⟩ := spec.of_done run
        -- The statement passed a token, so the smaller bound still exceeds what is left.
        have length := List.length_pos_iff.mpr moved
        have middle := walk'.cursor.left_eq
        have attempted : Process.attempt statement s.pastNewlines = .done (.ok a) d := by
          simp [Process.attempt, run]
        apply Ends.bind_of_done attempted walk'
        apply (ih (walk'.cursor.grounded hd) (by omega) (by omega)).bind
        intro body rest f further hbody
        apply Ends.pure
        intro plain
        obtain ⟨first, last, rfl, hfirst, hlast⟩ :=
          hbody (walk'.noted_eq_none.mpr (walk.noted_eq_none.mpr plain))
        have head := Forms.after_newlines newlines (forms (walk.noted_eq_none.mpr plain))
        exact ⟨breaks ++ used ++ first, last, by simp, .cons head hfirst, hlast⟩
      | failed e d =>
        obtain ⟨⟨used, walk'⟩, blamed⟩ := spec.of_failed run
        have middle := walk'.cursor.left_eq
        have attempted : Process.attempt statement s.pastNewlines = .done (.error e) d := by
          simp [Process.attempt, run]
        apply Ends.bind_of_done attempted walk'
        apply (parses_recover_behind hd walk' inside (by simpa using going.2) blamed).bind
        intro _ more f further hmore
        have length := List.length_pos_iff.mpr hmore.2
        have stop := further.cursor.left_eq
        rw [List.length_append] at length
        have hf := further.cursor.grounded (walk'.cursor.grounded hd)
        apply (ih hf (by omega) (by omega)).mono
        intro rest body _ plain
        exact absurd (walk.noted_eq_none.mpr plain) hmore.1

theorem parses_block {bound : Nat} {s : Stream} (grounded : s.cursor.Grounded)
    (fits : s.cursor.left ≤ k) (enough : s.cursor.left ≤ bound) :
    Parses (block statement bound) s fun used a =>
      used ≠ [] ∧ (s.noted = none → Forms used (.stmt a)) := by
  apply (Parses.under grounded (Reads.expect grounded (by simp))).bind
  intro opening used d walk hopening
  obtain ⟨rfl, hopening⟩ := hopening
  have hd := walk.cursor.grounded grounded
  have shorter := walk.cursor.left_eq
  rw [List.length_singleton] at shorter
  apply (parses_sequence below hd (by omega) (by omega)).bind
  intro body inner f further hbody
  apply (Parses.under (further.cursor.grounded hd) (Reads.close (further.cursor.grounded hd))).bind
  intro _ last _ _ hlast
  obtain ⟨closing, rfl, hclosing⟩ := hlast
  apply Ends.pure
  refine ⟨by simp, ?_⟩
  intro plain
  obtain ⟨first, breaks, rfl, hfirst, newlines⟩ := hbody (walk.noted_eq_none.mpr plain)
  simpa using Forms.block hopening hfirst newlines hclosing

private theorem parses_otherwise {test : Expr} {consequent : Stmt} {s : Stream}
    (grounded : s.cursor.Grounded) (fits : s.cursor.left ≤ k) :
    Parses (otherwise statement test consequent) s fun used a =>
      (used = [] ∧ a = .branch test consequent none) ∨
      ∃ breaks natra third alternate, used = breaks ++ natra :: third ∧
        (∀ b ∈ breaks, b.kind = .newline) ∧ natra.kind = .keyword .natra ∧
        (s.noted = none → Forms third (.stmt alternate)) ∧
        a = .branch test consequent (some alternate) := by
  have run : otherwise statement test consequent s = _ := otherwise_eq grounded
  by_cases hk : s.cursor.pastNewlines.peek.kind = .keyword .natra
  · rw [if_pos hk] at run
    obtain ⟨breaks, newlines, walk, -⟩ := grounded.passes_pastNewlines
    have hd := walk.grounded grounded
    have moved : s.Passes (breaks ++ [s.cursor.pastNewlines.peek])
        { s with cursor := s.cursor.pastNewlines.advance } :=
      ⟨walk.trans (hd.passes_advance (by simp [hk])), rfl⟩
    have shorter := moved.cursor.left_eq
    rw [List.length_append, List.length_singleton] at shorter
    apply Ends.further run moved
    apply (below _ (moved.cursor.grounded grounded) (by omega)).bind
    intro alternate third _ _ hthird
    exact .pure (.inr ⟨breaks, _, third, alternate, by simp, newlines, hk, hthird.2, rfl⟩)
  · rw [if_neg hk] at run
    exact .further run (.refl s) (.pure (.inl ⟨rfl, rfl⟩))

theorem parses_branch {t : Token} {s : Stream} (ht : t.kind = .keyword .yadi)
    (grounded : s.cursor.Grounded) (fits : s.cursor.left ≤ k) :
    Parses (branch statement) s fun used a =>
      used ≠ [] ∧ (s.noted = none → Forms (t :: used) (.stmt a)) := by
  rw [branch_eq]
  apply (Parses.under grounded (reads_expression grounded)).bind
  intro test first d walk htest
  have hd := walk.cursor.grounded grounded
  have start := walk.cursor.left_eq
  have length := List.length_pos_iff.mpr htest.ne_nil
  apply (Parses.under hd (Reads.expect hd (by simp))).bind
  intro bhane _ d' walk' hbhane
  obtain ⟨rfl, hbhane⟩ := hbhane
  have hd' := walk'.cursor.grounded hd
  have middle := walk'.cursor.left_eq
  apply (below d' hd' (by omega)).bind
  intro consequent second f further hsecond
  have stop := further.cursor.left_eq
  apply (parses_otherwise below (further.cursor.grounded hd') (by omega)).mono
  intro used a h
  refine ⟨by simp, ?_⟩
  intro plain
  have plain' := walk'.noted_eq_none.mpr (walk.noted_eq_none.mpr plain)
  have hconsequent := hsecond.2 plain'
  obtain ⟨rfl, rfl⟩ | ⟨breaks, natra, third, alternate, rfl, newlines, hnatra, hthird, rfl⟩ := h
  · simpa using Forms.branch ht htest hbhane hconsequent
  · have halternate := hthird (further.noted_eq_none.mpr plain')
    simpa using Forms.branchElse ht htest hbhane hconsequent newlines hnatra halternate

end

theorem formsBelow_statementWithin (k : Nat) : FormsBelow k (statementWithin k) := by
  induction k with
  | zero => intro s _ h; omega
  | succ k below =>
    intro s grounded fits
    apply Parses.skip_bind grounded
    intro breaks newlines walk
    have hd := walk.cursor.grounded grounded
    have start := walk.cursor.left_eq
    apply Parses.read_under_bind
    -- Line breaks in front of a statement are part of it, whatever it begins with.
    have whole : ∀ {used : List Token} {a : Stmt}, used ≠ [] →
        (s.pastNewlines.noted = none → Forms used (.stmt a)) →
        breaks ++ used ≠ [] ∧ (s.noted = none → Forms (breaks ++ used) (.stmt a)) := by
      intro used a moved forms
      refine ⟨by simp [moved], ?_⟩
      intro plain
      exact .after_newlines newlines (forms plain)
    split
    · next hk =>
      apply Parses.advance_bind hd (by simp [hk])
      intro d step
      have shorter := step.cursor.left_eq
      rw [List.length_singleton] at shorter
      apply (parses_branch below hk (step.cursor.grounded hd) (by omega)).mono
      intro used a forms
      exact whole (by simp) fun plain => forms.2 (step.noted_eq_none.mpr plain)
    · next hk =>
      apply Parses.advance_bind hd (by simp [hk])
      intro d step
      have hd' := step.cursor.grounded hd
      have shorter := step.cursor.left_eq
      rw [List.length_singleton] at shorter
      apply (Parses.under hd' (reads_expression hd')).bind
      intro test first f further htest
      have stop := further.cursor.left_eq
      apply (below f (further.cursor.grounded hd') (by omega)).bind
      intro body second _ _ hbody
      apply Ends.pure
      have forms : s.pastNewlines.noted = none →
          Forms (s.pastNewlines.cursor.peek :: first ++ second) (.stmt (.loop test body)) := by
        intro plain
        have plain' := further.noted_eq_none.mpr (step.noted_eq_none.mpr plain)
        exact .loop hk htest (hbody.2 plain')
      simpa using whole (by simp) forms
    · apply (parses_block below hd (by omega) (by omega)).mono
      intro used a h
      exact whole h.1 h.2
    · apply (Parses.under hd (reads_simple hd)).mono
      intro used a forms
      exact whole forms.ne_nil fun _ => forms

/-! ### Programs -/

theorem parses_statements {closing : Kind} {s : Stream} (grounded : s.cursor.Grounded) :
    Parses (statements closing) s fun used body =>
      s.noted = none → ∃ first breaks, used = first ++ breaks ∧ Forms first (.sequence body) ∧
        ∀ b ∈ breaks, b.kind = .newline := by
  have short := grounded.left_lt
  have run : statements closing s =
      sequence (statementWithin (s.cursor.ahead.length + 4)) closing
        (s.cursor.ahead.length + 4) s :=
    rfl
  exact .congr run (parses_sequence (formsBelow_statementWithin _) grounded (by omega) (by omega))

theorem stop_of_sequence {statement : Parsing Stmt} {closing : Kind} {bound : Nat} {s d : Stream}
    {body : List Stmt} (run : sequence statement closing bound s = .done body d) :
    d.cursor.atEnd = true ∨ d.cursor.check closing = true := by
  induction bound generalizing s body with
  | zero => cases run
  | succ bound ih =>
    obtain ⟨_, s₁, _, run⟩ := Process.bind_eq_done_iff.mp run
    obtain ⟨stop, s₂, read, run⟩ := Process.bind_eq_done_iff.mp run
    cases read
    split at run
    · next h =>
      cases run
      exact Bool.or_eq_true_iff.mp h
    · obtain ⟨outcome, s₃, _, run⟩ := Process.bind_eq_done_iff.mp run
      cases outcome with
      | ok a =>
        obtain ⟨more, s₄, run, done⟩ := Process.bind_eq_done_iff.mp run
        cases done
        exact ih run
      | error e =>
        obtain ⟨_, s₄, _, run⟩ := Process.bind_eq_done_iff.mp run
        exact ih run

/-- The tokens in front of the first end of input form the program that is read from them: each of
them stands in one rule, in order, and line breaks stand only where the grammar has them. -/
theorem formsProgram_of_ofTokens {tokens : List Token} {program : Program}
    (ended : ∃ t ∈ tokens, t.kind = .finish)
    (parsed : Program.ofTokens tokens = some (.ok program)) :
    FormsProgram (tokens.takeWhile (·.kind != .finish)) program := by
  have grounded : (Stream.plain tokens).cursor.Grounded := ⟨rfl, ended⟩
  unfold Program.ofTokens at parsed
  cases run : statements .finish (.plain tokens) with
  | failed e d => simp [run, Outcome.result] at parsed
  | endless => simp [run, Outcome.result] at parsed
  | done body d =>
    rw [run] at parsed
    cases parsed
    obtain ⟨used, walk, forms⟩ := (parses_statements grounded).of_done run
    obtain ⟨first, breaks, rfl, hfirst, newlines⟩ := forms rfl
    have stopped : d.cursor.peek.kind = .finish := by
      have stop := stop_of_sequence run
      simpa [Cursor.check, Cursor.atEnd] using stop
    have ahead := (walk.cursor.grounded grounded).ahead_eq
    have front : ∀ t ∈ first ++ breaks, (t.kind != .finish) = true := by
      intro t ht
      simpa using walk.cursor.unfinished t ht
    have before : tokens.takeWhile (·.kind != .finish) = first ++ breaks := by
      have whole : tokens = (first ++ breaks) ++ d.cursor.ahead := walk.cursor.ahead
      rw [whole, List.takeWhile_append_of_pos front, ahead,
        List.takeWhile_cons_of_neg (by simp [stopped]), List.append_nil]
    exact ⟨first, breaks, before, hfirst, newlines⟩

theorem formsProgram_of_ofTokens_else :
    let tokens : List Token :=
      [⟨.keyword .yadi, ⟨1, 1, 0⟩⟩, ⟨.keyword .thik, ⟨1, 6, 5⟩⟩, ⟨.keyword .bhane, ⟨1, 11, 10⟩⟩,
        ⟨.keyword .lekh, ⟨1, 17, 16⟩⟩, ⟨.symbol .semicolon, ⟨1, 21, 20⟩⟩, ⟨.newline, ⟨1, 22, 21⟩⟩,
        ⟨.keyword .natra, ⟨2, 1, 22⟩⟩, ⟨.symbol .openBrace, ⟨2, 7, 28⟩⟩,
        ⟨.symbol .closeBrace, ⟨2, 8, 29⟩⟩, ⟨.newline, ⟨2, 9, 30⟩⟩, .finish ⟨3, 1, 31⟩]
    let program : Program :=
      [.branch (.literal (.bool true) ⟨1, 6, 5⟩) (.print [] ⟨1, 17, 16⟩) (some (.block []))]
    Program.ofTokens tokens = some (.ok program) ∧
      FormsProgram (tokens.takeWhile (·.kind != .finish)) program := by
  intro tokens program
  have parsed : Program.ofTokens tokens = some (.ok program) := by
    dsimp only [tokens, program]
    cbv
  exact ⟨parsed, formsProgram_of_ofTokens ⟨.finish ⟨3, 1, 31⟩, by simp [tokens], rfl⟩ parsed⟩

end DaiScript.Grammar
