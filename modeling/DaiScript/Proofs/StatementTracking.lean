import DaiScript.Proofs.Recovery
import DaiScript.Proofs.RoundTrip
import DaiScript.Proofs.Tracking

/-! Parsing two lists of tokens side by side. Statements add two things to what readings do: line
breaks are skipped in front of them, and a fault may be noted. Where the first stream has come to
its end and the second has not, nothing more can be read from the first; this is allowed as long as
its errors need no counterpart. -/
namespace DaiScript

open Grammar Reading

namespace Grammar

def unended : Reading Stmt := do
  let token ← peek
  match token.kind with
  | .keyword .solti =>
    advance
    let name ← expect .name
    match ← accept? (.symbol .assign) with
    | some _ =>
      let value ← expression
      return .declare name.lexeme.nameText (some value) token.position
    | none => return .declare name.lexeme.nameText none token.position
  | .keyword .lekh =>
    advance
    if ← Process.read (·.check (.symbol .semicolon)) then return .print [] token.position
    else
      let arguments ← layer items
      return .print arguments token.position
  | .keyword .vaiVayoRokki =>
    advance
    return .leave token.position
  | .keyword .aghiBadhVai =>
    advance
    return .next token.position
  | _ =>
    let e ← expression
    return .expr e

theorem simple_eq : simple = (do
    let s ← unended
    let _ ← expect (.symbol .semicolon)
    return s) := by
  unfold simple unended semicolon
  simp only [bind_assoc, pure_bind]
  refine bind_congr fun token => ?_
  generalize token.kind = kind
  split
  · simp only [bind_assoc]
    refine bind_congr fun _ => bind_congr fun name => bind_congr fun equals => ?_
    cases equals with
    | none => simp only [pure_bind]
    | some equals => simp only [map_eq_pure_bind, bind_assoc, pure_bind]
  · simp only [bind_assoc]
    refine bind_congr fun _ => bind_congr fun none => ?_
    cases none with
    | true => simp only [if_true, pure_bind]
    | false => simp only [Bool.false_eq_true, if_false, bind_assoc, pure_bind]
  · simp only [bind_assoc, pure_bind]
  · simp only [bind_assoc, pure_bind]
  · simp only [bind_assoc, pure_bind]

end Grammar

namespace Tracking

variable (T : Tracking)

def stmt (s s' : Stmt) : Prop := s' = s.transport id T.move

variable {T}

theorem check_eq {c d : Cursor} (h : T.cursors c d) {kind : Kind} (solid : T.mute kind = false) :
    d.check kind = c.check kind := by
  have same := kind_eq_iff h solid
  unfold Cursor.check Cursor.atEnd
  by_cases hk : c.peek.kind = kind
  · rw [same.mpr hk, hk]
  · rw [beq_eq_false_iff_ne.mpr hk, beq_eq_false_iff_ne.mpr (mt same.mp hk), Bool.and_false,
      Bool.and_false]

theorem unended_matches (words : ∀ k : Keyword, T.mute (.keyword k) = false)
    (stops : ∀ {c d}, T.cursors c d → d.check (.symbol .semicolon) = c.check (.symbol .semicolon)) :
    Process.Matches T.readings T.stmt unended unended := by
  have plain : Process.Matches T.readings T.stmt (expression >>= fun e => Pure.pure (Stmt.expr e))
      (expression >>= fun e => Pure.pure (Stmt.expr e)) := by
    apply expression_matches.bind
    rintro e _ rfl
    exact .pure rfl
  apply peek_bind
  · intro t t' mute mute'
    have other : ∀ {t : Token}, T.mute t.kind = true → ∀ k : Keyword, t.kind ≠ .keyword k := by
      intro t mute k hk
      rw [hk, words] at mute
      contradiction
    split
    · next hk => exact absurd hk (other mute _)
    · next hk => exact absurd hk (other mute _)
    · next hk => exact absurd hk (other mute _)
    · next hk => exact absurd hk (other mute _)
    · split
      · next hk => exact absurd hk (other mute' _)
      · next hk => exact absurd hk (other mute' _)
      · next hk => exact absurd hk (other mute' _)
      · next hk => exact absurd hk (other mute' _)
      · exact plain
  · intro t
    rw [Token.kind_moved]
    split
    · apply advance_bind
      apply (expect_matches (mute_of_inner rfl)).bind
      rintro name _ rfl
      apply (accept?_matches (mute_of_inner rfl)).bind
      rintro equals _ rfl
      cases equals with
      | none => exact .pure rfl
      | some equals =>
        apply expression_matches.bind
        rintro e _ rfl
        exact .pure rfl
    · apply advance_bind
      have check : Process.Matches T.readings Eq (Process.read (·.check (.symbol .semicolon)))
          (Process.read (·.check (.symbol .semicolon))) :=
        fun c d related => .done (stops related).symm related
      apply check.bind_same
      intro none
      cases none with
      | true => exact .pure rfl
      | false =>
        apply layer_items_matches.bind
        rintro es _ rfl
        exact .pure rfl
    · exact advance_bind (.pure rfl)
    · exact advance_bind (.pure rfl)
    · exact onToken plain

theorem simple_matches (words : ∀ k : Keyword, T.mute (.keyword k) = false)
    (solid : T.mute (.symbol .semicolon) = false) :
    Process.Matches T.readings T.stmt simple simple := by
  rw [simple_eq]
  apply (unended_matches words fun related => check_eq related solid).bind
  rintro s _ rfl
  apply (expect_matches solid).bind
  rintro _ _ -
  exact .pure rfl

/-! Where places stay, what is read is the same. -/

section

variable (still : T.move = id)
include still

theorem expression_matches_same : Process.Matches T.readings Eq expression expression := by
  have same : T.expr = Eq := by
    funext e e'
    rw [expr, still, Expr.transport_id]
    exact propext eq_comm
  rw [← same]
  exact expression_matches

theorem expect_matches_same {kind : Kind} (solid : T.mute kind = false) :
    Process.Matches T.readings Eq (expect kind) (expect kind) := by
  have same : (fun t t' : Token => t' = t.moved T.move) = Eq := by
    funext t t'
    rw [still]
    exact propext eq_comm
  rw [← same]
  exact expect_matches solid

theorem unended_matches_same (words : ∀ k : Keyword, T.mute (.keyword k) = false)
    (stops : ∀ {c d}, T.cursors c d → d.check (.symbol .semicolon) = c.check (.symbol .semicolon)) :
    Process.Matches T.readings Eq unended unended := by
  have same : T.stmt = Eq := by
    funext s s'
    rw [stmt, still, Stmt.transport_id]
    exact propext eq_comm
  rw [← same]
  exact unended_matches words stops

end

end Tracking

/-- When one parsing follows another. -/
structure StreamTracking extends Tracking where
  notes : Option (List SyntaxError) → Option (List SyntaxError) → Prop
  full : ∀ {kind}, mute kind = true ↔ kind = .newline ∨ kind = .finish
  /-- Only a stream that hands its faults on may be excused from them. -/
  plain : ∀ {e first second}, excused (some e) → notes first second → first = none ∧ excused none
  skip : ∀ {c d}, cursors c d → cursors c.pastNewlines d.pastNewlines ∨
    c.pastNewlines.peek.kind = .finish ∧ ∀ e, excused (some e)
  natra : ∀ {c d}, cursors c d →
    (d.pastNewlines.peek.kind = .keyword .natra ↔ c.pastNewlines.peek.kind = .keyword .natra)
  recover : ∀ {s t : Stream} {e e' : SyntaxError} (closing : Kind), cursors s.cursor t.cursor →
    notes s.noted t.noted → error e e' →
    Outcome.Matches
      ⟨fun s t => cursors s.cursor t.cursor ∧ notes s.noted t.noted, error, excused⟩ Eq
      (Grammar.recover e closing s) (Grammar.recover e' closing t)

namespace StreamTracking

variable (P : StreamTracking)

def parsings : Correspondence SyntaxError Stream where
  state s t := P.cursors s.cursor t.cursor ∧ P.notes s.noted t.noted
  error := P.error
  excused := P.excused

variable {P} {value : α → β → Prop} {s t : Stream}

theorem mute_eq (kind : Kind) : P.mute kind = kind.isIdle := by
  rw [Bool.eq_iff_iff, P.full, isIdle_iff]

theorem solid_of {kind : Kind} (solid : kind.isIdle = false) : P.mute kind = false := by
  rwa [mute_eq]

theorem under_matches {r : Reading α} {r' : Reading β}
    (h : Process.Matches P.readings value r r') :
    Process.Matches P.parsings value (under r) (under r') := by
  rintro s t ⟨related, noted⟩
  rw [under_apply, under_apply]
  apply (h related).mapState
  · exact fun _ _ moved => ⟨moved, noted⟩
  · exact fun _ _ same => same
  · exact fun _ excused => excused

theorem simple_matches : Process.Matches P.parsings P.stmt (under simple) (under simple) :=
  under_matches (Tracking.simple_matches (fun _ => solid_of rfl) (solid_of rfl))

def OnToken (P : StreamTracking) (value : α → β → Prop) (p : Parsing α) (q : Parsing β) : Prop :=
  ∀ ⦃s t⦄, P.parsings.state s t → s.cursor.peek.kind.isIdle = false →
    Outcome.Matches P.parsings value (p s) (q t)

theorem onToken {p : Parsing α} {q : Parsing β} (h : Process.Matches P.parsings value p q) :
    P.OnToken value p q :=
  fun _ _ related _ => h related

theorem advance_bind {next : Unit → Parsing α} {next' : Unit → Parsing β}
    (h : Process.Matches P.parsings value (next ()) (next' ())) :
    P.OnToken value (under Reading.advance >>= next) (under Reading.advance >>= next') :=
  fun _ _ related solid => h ⟨P.advance related.1 (solid_of solid), related.2⟩

/-- Past the line breaks, both streams go on, or the first has come to its end for good. -/
theorem skip_bind {next : Unit → Parsing α} {next' : Unit → Parsing β}
    (related : P.parsings.state s t)
    (on : P.parsings.state s.pastNewlines t.pastNewlines →
      Outcome.Matches P.parsings value (next () s.pastNewlines) (next' () t.pastNewlines))
    (stuck : s.pastNewlines.cursor.peek.kind = .finish → (∀ e, P.excused (some e)) →
      ∀ o, Outcome.Matches P.parsings value (next () s.pastNewlines) o) :
    Outcome.Matches P.parsings value ((under skipNewlines >>= next) s)
      ((under skipNewlines >>= next') t) := by
  obtain ⟨hs, ht⟩ := P.grounded related.1
  rw [Process.bind_apply, Process.bind_apply, under_skipNewlines_eq hs, under_skipNewlines_eq ht]
  obtain onward | ⟨stopped, excused⟩ := P.skip related.1
  · exact on ⟨onward, related.2⟩
  · exact stuck stopped excused _

private theorem reads_matches {r : Reading α} {spelled : List Token → α → Prop}
    (grounded : s.cursor.Grounded) (stopped : s.cursor.peek.kind = .finish)
    (excused : ∀ e, P.excused (some e)) (reads : Reads r s.cursor spelled)
    (some : ∀ used a, spelled used a → used ≠ []) (o : Outcome SyntaxError Stream β) :
    Outcome.Matches P.parsings value (under r s) o := by
  rw [under_apply]
  cases run : r s.cursor with
  | endless => exact absurd run reads.not_endless
  | failed e d => exact .excusedFailed (excused e)
  | done a d =>
    obtain ⟨used, walk, spells⟩ := reads.of_done run
    cases used with
    | nil => exact absurd rfl (some [] a spells)
    | cons t used =>
      have ahead := grounded.ahead_eq
      rw [walk.ahead] at ahead
      obtain ⟨rfl, -⟩ := List.cons.inj ahead
      exact absurd stopped (walk.unfinished _ List.mem_cons_self)

/-! ### Sequences -/

theorem stop_eq {c d : Cursor} (related : P.cursors c d) (hc : c.peek.kind ≠ .newline)
    (hd : d.peek.kind ≠ .newline) (closing : Kind) :
    (d.atEnd || d.check closing) = (c.atEnd || c.check closing) := by
  cases idle : c.peek.kind.isIdle with
  | false =>
    unfold Cursor.check Cursor.atEnd
    rw [Tracking.kind_eq related (solid_of idle)]
  | true =>
    have ended : ∀ {f : Cursor}, f.peek.kind.isIdle = true → f.peek.kind ≠ .newline →
        f.atEnd = true := by
      intro f idle other
      obtain newline | finish := kind_of_isIdle idle
      · exact absurd newline other
      · rw [Cursor.atEnd, finish]
        rfl
    have idle' := P.idle related (by rwa [mute_eq])
    rw [mute_eq] at idle'
    rw [ended idle hc, ended idle' hd, Bool.true_or, Bool.true_or]

theorem sequence_bind_eq {statement : Parsing Stmt} {closing : Kind} {bound : Nat}
    {next : List Stmt → Parsing γ} (grounded : s.cursor.Grounded) :
    (sequence statement closing (bound + 1) >>= next) s =
      if s.pastNewlines.cursor.atEnd || s.pastNewlines.cursor.check closing then
        next [] s.pastNewlines
      else
        (Grammar.round statement closing (sequence statement closing bound) >>= next)
          s.pastNewlines := by
  rw [sequence_succ, bind_assoc, Process.bind_apply, under_skipNewlines_eq grounded, bind_assoc]
  change ((if s.pastNewlines.cursor.atEnd || s.pastNewlines.cursor.check closing then
    Pure.pure [] else _ : Parsing (List Stmt)) >>= next) _ = _
  split <;> rfl

theorem round_bind_eq (statement : Parsing Stmt) (closing : Kind) (more : Parsing (List Stmt))
    (next : List Stmt → Parsing γ) (s : Stream) :
    (Grammar.round statement closing more >>= next) s =
      match statement s with
      | .done first d => (more >>= fun rest => next (first :: rest)) d
      | .failed fault d => (Grammar.recover fault closing >>= fun _ => more >>= next) d
      | .endless => .endless := by
  rw [Process.bind_apply, round_eq]
  cases statement s with
  | done first d =>
    change ((more >>= fun rest => Pure.pure (first :: rest)) >>= next) d = _
    rw [bind_assoc]
    rfl
  | failed fault d =>
    change ((Grammar.recover fault closing >>= fun _ => more) >>= next) d = _
    rw [bind_assoc]
  | endless => rfl

private theorem recover_bind_matches {e : SyntaxError} (excused : P.excused (some e))
    (impatient : P.excused none) (closing : Kind) (next : Unit → Parsing α) (c : Cursor)
    (o : Outcome SyntaxError Stream β) :
    Outcome.Matches P.parsings value ((Grammar.recover e closing >>= next) ⟨c, none⟩) o := by
  rw [Process.bind_apply]
  obtain stuck | ⟨d, handed⟩ := recover_plain e closing c
  · rw [stuck]
    exact .excusedEndless impatient
  · rw [handed]
    exact .excusedFailed excused

section

variable {statement statement' : Parsing Stmt}
variable (h : Process.Matches P.parsings P.stmt statement statement') (agrees : Agrees statement)
include h agrees

private theorem round_bind_matches {closing : Kind} {more more' : Parsing (List Stmt)}
    {next : List Stmt → Parsing α} {next' : List Stmt → Parsing β}
    (taken : ∀ first, Process.Matches P.parsings value (more >>= fun rest => next (first :: rest))
      (more' >>= fun rest => next' (first.transport id P.move :: rest)))
    (skipped : Process.Matches P.parsings value (more >>= next) (more' >>= next')) :
    Process.Matches P.parsings value (Grammar.round statement closing more >>= next)
      (Grammar.round statement' closing more' >>= next') := by
  intro s t related
  rw [round_bind_eq, round_bind_eq]
  have outcome := h related
  cases run : statement s with
  | endless =>
    rw [run] at outcome
    generalize statement' t = o at outcome
    cases outcome with
    | endless => exact .endless
    | excusedEndless excused => exact .excusedEndless excused
  | done first d =>
    rw [run] at outcome
    generalize statement' t = o at outcome
    cases outcome with
    | done same onward =>
      cases same
      exact taken first onward
  | failed e d =>
    rw [run] at outcome
    generalize statement' t = o at outcome
    cases outcome with
    | failed same onward =>
      have recovered : Outcome.Matches P.parsings Eq (Grammar.recover e closing d) _ :=
        P.recover closing onward.1 onward.2 same
      exact recovered.bind fun _ _ _ _ _ moved => skipped moved
    | excusedFailed excused =>
      obtain ⟨plain, impatient⟩ := P.plain excused related.2
      obtain ⟨c, noted⟩ := s
      cases plain
      obtain ⟨cursor, rfl⟩ := agrees.failed_state run
      exact recover_bind_matches excused impatient closing _ cursor _

/-- What follows a sequence is given the statements read; where the first stream comes to its end,
that is to fail. -/
theorem sequence_bind_matches (closing : Kind) {n m : Nat} (lasts : Lasts (P.excused none) n m)
    {next : List Stmt → Parsing α} {next' : List Stmt → Parsing β}
    (k : ∀ body, Process.Matches P.parsings value (next body)
      (next' (Stmt.transportAll id P.move body)))
    (stuck : ∀ body (s : Stream), s.cursor.peek.kind = .finish → (∀ e, P.excused (some e)) →
      ∀ o, Outcome.Matches P.parsings value (next body s) o) :
    Process.Matches P.parsings value (sequence statement closing n >>= next)
      (sequence statement' closing m >>= next') := by
  induction lasts generalizing next next' with
  | zero => exact fun _ _ _ => .endless
  | short impatient => exact fun _ _ _ => .excusedEndless impatient
  | succ _ ih =>
    intro s t related
    obtain ⟨hs, ht⟩ := P.grounded related.1
    rw [sequence_bind_eq hs, sequence_bind_eq ht]
    obtain onward | ⟨stopped, excused⟩ := P.skip related.1
    · obtain ⟨-, -, -, hs'⟩ := hs.passes_pastNewlines
      obtain ⟨-, -, -, ht'⟩ := ht.passes_pastNewlines
      have state : P.parsings.state s.pastNewlines t.pastNewlines := ⟨onward, related.2⟩
      have same : (t.pastNewlines.cursor.atEnd || t.pastNewlines.cursor.check closing) =
          (s.pastNewlines.cursor.atEnd || s.pastNewlines.cursor.check closing) :=
        stop_eq onward hs' ht' closing
      rw [same]
      split
      · exact k [] state
      · apply round_bind_matches h agrees _ (ih k stuck) state
        intro first
        exact ih (fun body => k (first :: body)) fun body => stuck (first :: body)
    · have ended : s.pastNewlines.cursor.atEnd = true := beq_iff_eq.mpr stopped
      rw [ended, Bool.true_or, if_pos rfl]
      exact stuck [] _ stopped excused _

theorem sequence_matches (never : ∃ e, ¬P.excused (some e)) (closing : Kind) {n m : Nat}
    (lasts : Lasts (P.excused none) n m) :
    Process.Matches P.parsings (fun body body' => body' = Stmt.transportAll id P.move body)
      (sequence statement closing n) (sequence statement' closing m) := by
  have whole : Process.Matches P.parsings
      (fun body body' => body' = Stmt.transportAll id P.move body)
      (sequence statement closing n >>= Pure.pure)
      (sequence statement' closing m >>= Pure.pure) := by
    apply sequence_bind_matches h agrees closing lasts
    · intro body
      exact .pure rfl
    · intro _ _ _ all
      obtain ⟨e, never⟩ := never
      exact absurd (all e) never
  rwa [bind_pure, bind_pure] at whole

/-! ### Statements -/

private theorem block_matches {n m : Nat} (lasts : Lasts (P.excused none) n m) :
    Process.Matches P.parsings P.stmt (block statement n) (block statement' m) := by
  apply (under_matches (Tracking.expect_matches (solid_of rfl))).bind
  rintro opening _ rfl
  apply sequence_bind_matches h agrees _ lasts
  · intro body
    apply (under_matches (Tracking.close_matches (solid_of rfl) _)).bind_same
    intro _
    exact .pure rfl
  · -- The end of the first stream is no brace.
    intro body s stopped excused o
    have ended : s.cursor.atEnd = true := beq_iff_eq.mpr stopped
    have refused : ∃ e, close .closeBrace '\x7d' s.cursor = .failed e s.cursor := by
      simp [close, accept?, Cursor.advanceIf, Cursor.check, ended, Process.bind_apply,
        Reading.reject]
    obtain ⟨e, refused⟩ := refused
    rw [Process.bind_apply, under_apply, refused]
    exact .excusedFailed (excused e)

omit agrees in
private theorem otherwise_matches (test : Expr) (consequent : Stmt) :
    Process.Matches P.parsings P.stmt (otherwise statement test consequent)
      (otherwise statement' (test.transport id P.move) (consequent.transport id P.move)) := by
  intro s t related
  obtain ⟨hs, ht⟩ := P.grounded related.1
  rw [otherwise_eq hs, otherwise_eq ht]
  by_cases hk : s.cursor.pastNewlines.peek.kind = .keyword .natra
  · rw [if_pos hk, if_pos ((P.natra related.1).mpr hk)]
    obtain onward | ⟨stopped, -⟩ := P.skip related.1
    · have moved : P.parsings.state { s with cursor := s.cursor.pastNewlines.advance }
          { t with cursor := t.cursor.pastNewlines.advance } :=
        ⟨P.advance onward (solid_of (by rw [hk]; rfl)), related.2⟩
      apply (h moved).bind
      rintro alternate _ _ _ rfl state
      exact .done rfl state
    · rw [hk] at stopped
      cases stopped
  · rw [if_neg hk, if_neg (mt (P.natra related.1).mp hk)]
    exact .done rfl related

omit agrees in
private theorem branch_matches :
    Process.Matches P.parsings P.stmt (branch statement) (branch statement') := by
  rw [branch_eq, branch_eq]
  apply (under_matches Tracking.expression_matches).bind
  rintro test _ rfl
  apply (under_matches (Tracking.expect_matches (solid_of rfl))).bind
  rintro bhane _ rfl
  apply h.bind
  rintro consequent _ rfl
  exact otherwise_matches h test consequent

end

theorem entered_of_idle {kind : Kind} (idle : kind.isIdle = true) (n : Nat) :
    entered n kind = under simple := by
  obtain rfl | rfl := kind_of_isIdle idle <;> rfl

private theorem entered_matches {n m : Nat} (lasts : Lasts (P.excused none) n m)
    (h : Process.Matches P.parsings P.stmt (statementWithin n) (statementWithin m)) (kind : Kind) :
    P.OnToken P.stmt (entered n kind) (entered m kind) := by
  unfold entered
  split
  · exact advance_bind (branch_matches h)
  · apply advance_bind
    apply (under_matches Tracking.expression_matches).bind
    rintro test _ rfl
    apply h.bind
    rintro body _ rfl
    exact .pure rfl
  · exact onToken (block_matches h (.statementWithin n) lasts)
  · exact onToken (simple_matches)

theorem statementWithin_matches {n m : Nat} (lasts : Lasts (P.excused none) n m) :
    Process.Matches P.parsings P.stmt (statementWithin n) (statementWithin m) := by
  induction lasts with
  | zero => exact .endless
  | short impatient => exact .excused impatient _
  | succ lasts ih =>
    intro s t related
    rw [statementWithin_succ, statementWithin_succ]
    apply skip_bind related
    · intro state
      change Outcome.Matches P.parsings P.stmt (entered _ s.pastNewlines.cursor.peek.kind _)
        (entered _ t.pastNewlines.cursor.peek.kind _)
      cases kind : s.pastNewlines.cursor.peek.kind.isIdle with
      | true =>
        have kind' := P.idle state.1 (by rwa [mute_eq])
        rw [mute_eq] at kind'
        rw [entered_of_idle kind, entered_of_idle kind']
        exact simple_matches state
      | false =>
        rw [Tracking.kind_eq state.1 (solid_of kind)]
        exact entered_matches lasts ih _ state kind
    · intro stopped excused o
      have hs := (P.grounded related.1).1
      obtain ⟨breaks, -, walk, -⟩ := hs.passes_pastNewlines
      have grounded := walk.grounded hs
      change Outcome.Matches P.parsings P.stmt (entered _ s.pastNewlines.cursor.peek.kind _) o
      rw [stopped]
      exact reads_matches grounded stopped excused (reads_simple grounded)
        (fun _ _ => Forms.ne_nil) o

end StreamTracking

end DaiScript
