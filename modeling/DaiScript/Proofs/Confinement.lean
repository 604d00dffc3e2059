import DaiScript.Proofs.Cascade
import DaiScript.Proofs.Enclosure
import DaiScript.Proofs.Ledger

/-! What a fault in a block does to the statements behind the block. Recovery passes an opening
brace without counting it, so a brace further in may be taken for the one that closes the block, and
then faults behind the block can be lost. Nothing else can go wrong: the block is left in order
whatever follows it just if, read alone, it is closed by its own brace. -/
namespace DaiScript

open Grammar Reading

structure Enclosed where
  opening : Token
  body : List Token
  closing : Token
  opens : opening.kind = .symbol .openBrace
  closes : closing.kind = .symbol .closeBrace
  inside : ∀ t ∈ body, t.kind ≠ .finish

structure Balanced (tokens : List Token) : Prop where
  even : openings tokens = closings tokens
  front : ∀ front, front <+: tokens → closings front ≤ openings front

instance (tokens : List Token) : Decidable (Balanced tokens) :=
  decidable_of_iff
    (openings tokens = closings tokens ∧ ∀ front ∈ tokens.inits, closings front ≤ openings front)
    ⟨fun h => ⟨h.1, fun front initial => h.2 front ((List.mem_inits front tokens).mpr initial)⟩,
      fun h => ⟨h.even,
        fun front member => h.front front ((List.mem_inits front tokens).mp member)⟩⟩

namespace Enclosed

variable (B : Enclosed)

def tokens : List Token := B.opening :: B.body ++ [B.closing]

/-- Read alone, the block is closed by its own brace: nothing is left of it but the end of input. -/
def ClosesItself (stop : Token) : Prop :=
  ∃ a s, Grammar.statement (.recovering (B.tokens ++ [stop])) = .done a s ∧ s.cursor.atEnd = true

instance (stop : Token) : Decidable (B.ClosesItself stop) :=
  match run : Grammar.statement (.recovering (B.tokens ++ [stop])) with
  | .done a s => decidable_of_iff (s.cursor.atEnd = true)
      ⟨fun ended => ⟨a, s, run, ended⟩, fun ⟨_, _, run', ended⟩ => by
        cases run.symm.trans run'
        exact ended⟩
  | .failed _ _ | .endless => .isFalse fun ⟨_, _, run', _⟩ => by cases run.symm.trans run'

/-- Whatever stands behind the block, short of `natra`, has the faults that it has alone. The others
name tokens in the block, and there are none if the block holds a program. -/
def Confines : Prop :=
  ∀ (rest : List Token) (stop : Token), (∀ t ∈ rest, t.kind ≠ .finish) →
    (∀ t, rest.find? (·.kind ≠ .newline) = some t → t.kind ≠ .keyword .natra) →
    stop.kind = .finish →
    ∃ inner outer, Program.faults (rest ++ [stop]) = some outer ∧
      Program.faults (B.tokens ++ rest ++ [stop]) = some (inner ++ outer) ∧
      (∀ e ∈ inner, ∃ t ∈ B.body ++ [B.closing], e.Blames t) ∧
      ∀ program, Program.ofTokens (B.body ++ [stop]) = some (.ok program) → inner = []

variable {B}

theorem tokens_eq (tail : List Token) :
    B.tokens ++ tail = B.opening :: B.body ++ B.closing :: tail := by
  simp [tokens]

theorem length_tokens : B.tokens.length = B.body.length + 2 := by
  simp [tokens]

theorem reach_tokens (stop : Token) :
    (Cursor.ofTokens (B.tokens ++ [stop])).reach = B.body.length + 7 := by
  change (B.tokens ++ [stop]).length + 4 = _
  rw [List.length_append, length_tokens, List.length_singleton]

theorem fenced : Fenced True B.tokens where
  fence := ⟨B.closing, by simp [tokens, List.getLast?_cons], by rw [B.closes]; rfl⟩
  inside := by
    unfold tokens
    rw [List.forall_mem_append, List.forall_mem_cons]
    exact ⟨⟨by simp [B.opens], B.inside⟩, by simp [B.closes]⟩
  brace _ _ _ := trivial

def continuations {stop : Token} (finish : stop.kind = .finish) {tail : List Token}
    (ensuing : Ensuing tail) :
    Continuations :=
  ⟨[stop], tail, True, .finish finish, ensuing, ensuing.length_pos⟩

section

variable {stop : Token} (finish : stop.kind = .finish)
include finish

theorem agreeToFence {tail : List Token} (ensuing : Ensuing tail) {k : Nat}
    (wide : B.body.length + 7 ≤ k) :
    (continuations finish ensuing).AgreeToFence
      (Grammar.statement (.recovering (B.tokens ++ [stop])))
      (statementWithin k ⟨.between [] (B.tokens ++ tail), some []⟩) := by
  have front : (continuations finish ensuing).InFront (.recovering (B.tokens ++ [stop]))
      ⟨.between [] (B.tokens ++ tail), some []⟩ := ⟨.intro B.fenced, rfl, nofun⟩
  exact Continuations.parseAlike_statementWithin ((reach_tokens stop).trans_le wide) front

theorem ClosesItself.exists_inner (h : B.ClosesItself stop) :
    ∃ inner, ∀ {tail : List Token}, Ensuing tail → ∀ {k : Nat}, B.body.length + 7 ≤ k →
      ∃ a behind, statementWithin k ⟨.between [] (B.tokens ++ tail), some []⟩ =
        .done a ⟨.between behind tail, some inner⟩ := by
  obtain ⟨a, ⟨c, noted⟩, run, ended⟩ := h
  refine ⟨noted.getD [], fun {tail} ensuing {k} wide => ?_⟩
  have outcome := agreeToFence finish ensuing wide
  rw [run] at outcome
  generalize statementWithin k _ = o at outcome ⊢
  cases outcome with
  | @done _ _ t arrived =>
    obtain ⟨d, noted'⟩ := t
    obtain ⟨upto, same, recovers⟩ := arrived
    dsimp only at upto same recovers ended
    subst same
    cases noted' with
    | none => exact absurd rfl recovers
    | some noted =>
      cases upto with
      | before front => exact absurd (beq_iff_eq.mp ended) front.peek_eq.2
      | behind => exact ⟨a, _, rfl⟩

end

theorem sequence_tokens {statement : Parsing Stmt} {tail : List Token} {n : Nat}
    {noted : Option (List SyntaxError)} (ended : ∃ t ∈ tail, t.kind = .finish) :
    sequence statement .finish (n + 1) ⟨.between [] (B.tokens ++ tail), noted⟩ =
      round statement .finish (sequence statement .finish n)
        ⟨.between [] (B.tokens ++ tail), noted⟩ := by
  obtain ⟨f, hf, finish⟩ := ended
  have still : (Cursor.between [] (B.tokens ++ tail)).pastNewlines =
      .between [] (B.tokens ++ tail) := by
    rw [tokens_eq]
    exact Cursor.pastNewlines_cons (by simp [B.opens]) _ _
  have grounded : (Cursor.between [] (B.tokens ++ tail)).Grounded :=
    ⟨rfl, f, List.mem_append_right _ hf, finish⟩
  have inside : (Cursor.between [] (B.tokens ++ tail)).peek.kind ≠ .finish := by
    change B.opening.kind ≠ .finish
    simp [B.opens]
  rw [sequence_of_inside grounded (still.symm ▸ inside), still]

/-! ### Closed blocks -/

private theorem exists_site {tokens : List Token} {errors : List SyntaxError} {sites : List Nat}
    (raised : List.Forall₂ (SyntaxError.RaisedAt tokens) errors sites) {e : SyntaxError}
    (he : e ∈ errors) : ∃ i ∈ sites, e.RaisedAt tokens i := by
  induction raised with
  | nil => cases he
  | cons first _ ih =>
    obtain rfl | he := List.mem_cons.mp he
    · exact ⟨_, List.mem_cons_self, first⟩
    · obtain ⟨i, hi, raisedAt⟩ := ih he
      exact ⟨i, List.mem_cons_of_mem _ hi, raisedAt⟩

private theorem exists_blamed {e : SyntaxError} {i : Nat} {tail : List Token}
    (raised : e.RaisedAt (B.tokens ++ tail) i) (lower : 0 < i) (upper : i < B.tokens.length) :
    ∃ t ∈ B.body ++ [B.closing], e.Blames t := by
  obtain ⟨t, found, blamed⟩ := raised
  obtain ⟨i, rfl⟩ := Nat.exists_eq_add_of_le' lower
  rw [List.getElem?_append_left upper] at found
  exact ⟨t, List.mem_of_getElem? (i := i) found, blamed⟩

section

variable {inner : List SyntaxError}
variable (closed : ∀ {tail : List Token}, Ensuing tail → ∀ {k : Nat}, B.body.length + 7 ≤ k →
  ∃ a behind, statementWithin k ⟨.between [] (B.tokens ++ tail), some []⟩ =
    .done a ⟨.between behind tail, some inner⟩)
include closed

/-- With a line break between the block and the end, it is clear that no fault is one at the end. -/
theorem blames_of_closed : ∀ e ∈ inner, ∃ t ∈ B.body ++ [B.closing], e.Blames t := by
  let line : Token := ⟨.newline, .start⟩
  let stop : Token := .finish .start
  have ensuing : Ensuing ([line] ++ [stop]) :=
    .intro (List.forall_mem_singleton.mpr rfl) (show stop.kind ≠ .newline by decide)
      (show stop.kind ≠ .keyword .natra by decide) ⟨stop, List.mem_cons_self, rfl⟩
  obtain ⟨a, behind, run⟩ := closed ensuing (Nat.le_refl (B.body.length + 7))
  let s : Stream := ⟨.between [] (B.tokens ++ ([line] ++ [stop])), some []⟩
  have grounded : s.cursor.Grounded := ensuing.grounded [] B.tokens
  have short : s.cursor.left < (B.tokens ++ ([line] ++ [stop])).length := grounded.left_lt
  have fits : s.cursor.left < B.body.length + 7 := by
    simp only [List.length_append, length_tokens, List.length_singleton] at short
    omega
  obtain ⟨used, ⟨sites, charged⟩, -⟩ :=
    (accountsBelow_statementWithin _ s grounded nofun fits).of_done run
  have passed : used = B.tokens := by
    have ahead : B.tokens ++ ([line] ++ [stop]) = used ++ ([line] ++ [stop]) := charged.passes.ahead
    exact (List.append_cancel_right ahead).symm
  have onward := charged.passes.offset_eq
  have before := charged.passes.left_eq
  have start : s.cursor.offset = 0 := rfl
  have one : (Cursor.between behind ([line] ++ [stop])).left = 1 := rfl
  have bounds : ∀ i ∈ sites, 0 < i ∧ i < B.tokens.length := by
    intro i hi
    have := charged.inner i hi
    have := charged.upper i hi
    have := charged.settled i hi
    unfold Cursor.stop at this
    dsimp only at *
    rw [passed] at onward before
    omega
  obtain ⟨more, noted, raised⟩ := charged.noted
  have same : inner = more := Option.some.inj noted
  rw [same]
  intro e he
  obtain ⟨i, hi, raisedAt⟩ := exists_site raised he
  exact exists_blamed raisedAt (bounds i hi).1 (bounds i hi).2

private theorem faults_of_closed {rest : List Token} {stop : Token} (finish : stop.kind = .finish)
    (ensuing : Ensuing (rest ++ [stop])) :
    ∃ outer, Program.faults (rest ++ [stop]) = some outer ∧
      Program.faults (B.tokens ++ rest ++ [stop]) = some (inner ++ outer) := by
  have ended : ∃ t ∈ rest ++ [stop], t.kind = .finish := ⟨stop, by simp, finish⟩
  have ended' : ∃ t ∈ B.tokens ++ (rest ++ [stop]), t.kind = .finish := ⟨stop, by simp, finish⟩
  obtain ⟨outer, found, run⟩ := Program.exists_faults ended
  obtain ⟨all, found', run'⟩ := Program.exists_faults ended'
  refine ⟨outer, found, ?_⟩
  rw [List.append_assoc, found']
  have bound : (B.tokens ++ (rest ++ [stop])).length ≤
      (rest ++ [stop]).length + B.body.length + 7 := by
    rw [List.length_append, length_tokens]
    omega
  obtain ⟨a, behind, read⟩ := closed ensuing
    (show B.body.length + 7 ≤ (rest ++ [stop]).length + B.body.length + 7 by omega)
  have whole := run' bound bound [] []
  rw [sequence_tokens ended, round_eq, read] at whole
  dsimp only at whole
  rw [reports_bind_pure, run (by omega) (by omega)] at whole
  exact congrArg some whole.symm

end

theorem exists_read_of_program {stop : Token} {program : Program} (finish : stop.kind = .finish)
    (parsed : Program.ofTokens (B.body ++ [stop]) = some (.ok program)) :
    ∃ a behind, statementWithin (B.body.length + 7) ⟨.between [] (B.tokens ++ [stop]), some []⟩ =
      .done a ⟨.between behind [stop], some []⟩ := by
  have ended : ∃ t ∈ [stop], t.kind = .finish := ⟨stop, List.mem_cons_self, finish⟩
  rw [tokens_eq]
  exact exists_enclosed B.inside finish parsed B.opens B.closes ended (Nat.le_refl _)

theorem confines_of_closesItself {stop : Token} (finish : stop.kind = .finish)
    (h : B.ClosesItself stop) : B.Confines := by
  obtain ⟨inner, closed⟩ := h.exists_inner finish
  intro rest stop inside other finish
  have ended : ∃ t ∈ rest ++ [stop], t.kind = .finish := ⟨stop, by simp, finish⟩
  have ensuing : Ensuing (rest ++ [stop]) := by
    apply Ensuing.of_find? ended
    intro t first
    rw [List.find?_append, Option.or_eq_some_iff] at first
    obtain first | ⟨-, first⟩ := first
    · exact other t first
    · cases List.mem_singleton.mp (List.mem_of_find?_eq_some first)
      simp [finish]
  obtain ⟨outer, found, found'⟩ := faults_of_closed closed finish ensuing
  refine ⟨inner, outer, found, found', blames_of_closed closed, ?_⟩
  intro program parsed
  obtain ⟨a, behind, run⟩ := exists_read_of_program finish parsed
  obtain ⟨a', behind', run'⟩ :=
    closed (Blank.finish finish).ensuing (Nat.le_refl (B.body.length + 7))
  cases run.symm.trans run'
  rfl

/-! ### Blocks that are closed too early -/

end Enclosed

def Overclosed (tokens : List Token) : Prop :=
  ∀ rest, rest ≠ [] → rest <:+ tokens → openings rest < closings rest

theorem Balanced.overclosed {body : List Token} (h : Balanced body) {closing : Token}
    (closes : closing.kind = .symbol .closeBrace) : Overclosed (body ++ [closing]) := by
  intro rest some suffix
  obtain ⟨front, whole⟩ := suffix
  obtain rfl | ⟨rest, last, rfl⟩ := rest.eq_nil_or_concat'
  · contradiction
  · rw [← List.append_assoc] at whole
    obtain ⟨rfl, same⟩ := List.append_inj' whole rfl
    cases same
    have even := h.even
    have early := h.front front (List.prefix_append front rest)
    have one : openings [closing] = 0 ∧ closings [closing] = 1 := by
      simp [openings, closings, closes]
    simp only [openings_append, closings_append] at even ⊢
    omega

namespace Overclosed

variable {front rest tail used ahead : List Token}

theorem of_append (h : Overclosed (front ++ rest)) : Overclosed rest :=
  fun ending some suffix => h ending some (suffix.trans (List.suffix_append front rest))

theorem exists_rest (h : Overclosed front) (some : front ≠ [])
    (bare : ∀ t ∈ tail, t.kind.isBrace = false) (whole : front ++ tail = used ++ ahead)
    (balance : closings used ≤ openings used) :
    ∃ rest, rest ≠ [] ∧ front = used ++ rest ∧ ahead = rest ++ tail := by
  have excess := h front some (List.suffix_refl front)
  obtain ⟨more, rfl, rfl⟩ | ⟨rest, rfl, rfl⟩ := List.append_eq_append_iff.mp whole
  · have none : openings more = 0 := by
      unfold openings
      rw [List.countP_eq_zero]
      intro t ht hk
      have := bare t (List.mem_append_left ahead ht)
      rw [of_decide_eq_true hk] at this
      contradiction
    rw [openings_append, closings_append] at balance
    omega
  · refine ⟨rest, ?_, rfl, rfl⟩
    rintro rfl
    rw [List.append_nil] at excess
    omega

end Overclosed

/-- A statement that is none. Recovery that passes the token in front of it passes all of it. -/
def stray (p : Position) : List Token := [⟨.symbol .plus, p⟩, ⟨.symbol .semicolon, p⟩, .finish p]

section

variable (p : Position)

private theorem faults_stray : Program.faults (stray p) = some [⟨.noExpression "'+'", p⟩] := by
  cbv

private theorem bare_stray : ∀ t ∈ stray p, t.kind.isBrace = false := by
  simp [stray, Token.kind, Lexeme.symbol, Token.finish, Lexeme.finish, Kind.isBrace]

private theorem ensuing_stray : Ensuing (stray p) := by
  change Ensuing ([] ++ stray p)
  exact .intro (by simp) (show Kind.symbol .plus ≠ .newline by simp)
    (show Kind.symbol .plus ≠ .keyword .natra by simp) ⟨.finish p, by simp, rfl⟩

end

/-- The cursor is in front of a brace that was meant to close a block, and of the stray behind
it. -/
structure BeforeStray (p : Position) (closing : Token) (c : Cursor) : Prop where
  within : c.beyond = 0
  ahead : ∃ front, c.ahead = front ++ stray p ∧ front.getLast? = some closing ∧ Overclosed front ∧
    ∀ t ∈ front, t.kind ≠ .finish

namespace BeforeStray

variable {p : Position} {closing : Token} {c d : Cursor} {used : List Token}

theorem grounded (h : BeforeStray p closing c) : c.Grounded := by
  obtain ⟨front, ahead, -⟩ := h.ahead
  exact ⟨h.within, .finish p, by simp [ahead, stray], rfl⟩

theorem inside (h : BeforeStray p closing c) : c.peek.kind ≠ .finish := by
  obtain ⟨front, ahead, last, -, inside⟩ := h.ahead
  cases front with
  | nil => cases last
  | cons t front =>
    have first : c.peek = t := by
      rw [Cursor.peek, ahead]
      rfl
    rw [first]
    exact inside t List.mem_cons_self

theorem passes (h : BeforeStray p closing c) (walk : c.Passes used d)
    (balance : closings used ≤ openings used) : BeforeStray p closing d := by
  obtain ⟨front, ahead, last, excess, inside⟩ := h.ahead
  have some : front ≠ [] := by
    rintro rfl
    cases last
  obtain ⟨rest, some', rfl, ahead'⟩ :=
    excess.exists_rest some (bare_stray p) (ahead.symm.trans walk.ahead) balance
  refine ⟨walk.beyond.trans h.within, rest, ahead', ?_, excess.of_append, ?_⟩
  · rwa [List.getLast?_append_of_ne_nil _ some'] at last
  · exact fun t ht => inside t (List.mem_append_right used ht)

private theorem exists_ahead (h : BeforeStray p closing c) :
    ∃ front, c.advance.ahead = front ++ stray p ∧
      (front = [] ∧ c.peek = closing ∨ front ≠ [] ∧ BeforeStray p closing c.advance) := by
  have step := h.grounded.passes_advance h.inside
  obtain ⟨front, ahead, last, excess, inside⟩ := h.ahead
  cases front with
  | nil => cases last
  | cons t front =>
    have whole : t :: (front ++ stray p) = c.peek :: c.advance.ahead := ahead.symm.trans step.ahead
    obtain ⟨first, onward⟩ := List.cons.inj whole
    refine ⟨front, onward.symm, ?_⟩
    cases front with
    | nil => exact .inl ⟨rfl, first.symm.trans (Option.some.inj last)⟩
    | cons u front =>
      refine .inr ⟨by simp, step.beyond.trans h.within, u :: front, onward.symm, ?_, ?_, ?_⟩
      · rwa [List.getLast?_cons_cons] at last
      · exact (show Overclosed ([t] ++ u :: front) from excess).of_append
      · exact fun v hv => inside v (List.mem_cons_of_mem t hv)

private theorem seekStatement_stray (closes : closing.kind = .symbol .closeBrace)
    (behind : List Token) (n : Nat) :
    ∃ d, seekStatement (n + 3) (.between (closing :: behind) (stray p)) = .done () d ∧
      d.peek.kind = .finish := by
  have going : ((Cursor.between (closing :: behind) (stray p)).atEnd ||
      (Cursor.between (closing :: behind) (stray p)).previous.kind == .symbol .semicolon ||
      resumes (Cursor.between (closing :: behind) (stray p)).peek.kind) = false := by
    change (false || closing.kind == .symbol .semicolon || false) = false
    rw [closes]
    rfl
  rw [seekStatement_succ, going]
  exact ⟨_, rfl, rfl⟩

/-- Recovery in front of the brace stays in front of it; from the brace itself, it passes the
stray. -/
theorem exists_resumed (h : BeforeStray p closing c) (closes : closing.kind = .symbol .closeBrace) :
    ∃ used d, resumed .finish c = .done () d ∧ c.Passes used d ∧ used ≠ [] ∧
      (BeforeStray p closing d ∨ c.peek = closing ∧ d.peek.kind = .finish) := by
  have other : c.check .finish = false := by simp [Cursor.check, Cursor.atEnd]
  have onward : resumed .finish c = seekStatement c.advance.reach c.advance := by
    unfold resumed
    rw [other]
    rfl
  have step := h.grounded.passes_advance h.inside
  have hc := step.grounded h.grounded
  have short := hc.left_lt
  obtain ⟨used, d, run, walk, passed⟩ :=
    exists_seekStatement hc (show c.advance.left < c.advance.reach by unfold Cursor.reach; omega)
  refine ⟨c.peek :: used, d, onward.trans run, step.trans walk, by simp, ?_⟩
  obtain ⟨front, ahead, ⟨rfl, last⟩ | ⟨-, before⟩⟩ := h.exists_ahead
  · have place : c.advance = .between (closing :: c.behind) (stray p) := by
      have behind := step.behind
      have beyond := step.beyond.trans h.within
      rw [last] at behind
      generalize c.advance = e at ahead behind beyond
      cases e
      cases ahead
      cases behind
      cases beyond
      rfl
    obtain ⟨d', run', ended⟩ := seekStatement_stray (p := p) closes c.behind 4
    rw [place] at run
    cases run.symm.trans run'
    exact .inr ⟨last, ended⟩
  · refine .inl (before.passes walk ?_)
    rw [closings_eq_zero]
    · exact Nat.zero_le _
    · intro t ht hk
      have := passed t ht
      rw [hk] at this
      contradiction

private theorem exists_missed (h : BeforeStray p closing c)
    (closes : closing.kind = .symbol .closeBrace) {k n : Nat} (fits : c.left < k)
    (enough : c.left < n) (noted : List SyntaxError) :
    ∃ earlier e, reports (sequence (statementWithin k) .finish n ⟨c, some noted⟩) = earlier ++ [e] ∧
      e.Blames closing := by
  induction n generalizing c noted with
  | zero => omega
  | succ n ih =>
    obtain ⟨breaks, newlines, skipped, -⟩ := h.grounded.passes_pastNewlines
    have shorter := skipped.left_eq
    have none : closings breaks = 0 := closings_eq_zero fun b hb => by simp [newlines b hb]
    have h' := h.passes skipped (by omega)
    rw [sequence_of_inside h.grounded h'.inside, round_eq]
    have spec := accountsBelow_statementWithin k ⟨c.pastNewlines, some noted⟩ h'.grounded nofun
      (show c.pastNewlines.left < k by omega)
    cases run : statementWithin k ⟨c.pastNewlines, some noted⟩ with
    | endless => exact absurd run spec.not_endless
    | done a d =>
      obtain ⟨used, ⟨sites, charged⟩, moved⟩ := spec.of_done run
      obtain ⟨d, noted'⟩ := d
      obtain ⟨more, rfl, -⟩ := charged.noted
      have before : BeforeStray p closing d := h'.passes charged.passes charged.balance
      have fewer : c.pastNewlines.left = used.length + d.left := charged.passes.left_eq
      have length := List.length_pos_iff.mpr moved
      dsimp only
      rw [reports_bind_pure]
      exact ih before (by omega) (by omega) _
    | failed e d =>
      obtain ⟨⟨used, sites, charged⟩, blamed⟩ := spec.of_failed run
      obtain ⟨d, noted'⟩ := d
      obtain ⟨more, rfl, -⟩ := charged.noted
      have before : BeforeStray p closing d := h'.passes charged.passes charged.balance
      have fewer : c.pastNewlines.left = used.length + d.left := charged.passes.left_eq
      obtain ⟨used', f, resumption, walk, moved, outcome⟩ := before.exists_resumed closes
      have fewer' := walk.left_eq
      have length := List.length_pos_iff.mpr moved
      have recovered : recover e .finish ⟨d, some (noted ++ more)⟩ =
          .done () ⟨f, some (noted ++ more ++ [e])⟩ := by
        rw [recover_eq]
        dsimp only
        rw [resumption]
      dsimp only [Option.map]
      rw [Process.bind_apply, recovered]
      obtain before | ⟨last, ended⟩ := outcome
      · exact ih before (by omega) (by omega) _
      · have hf := walk.grounded before.grounded
        have still := hf.pastNewlines_eq (by simp [ended])
        obtain ⟨n, rfl⟩ := Nat.exists_eq_add_of_le' (show 1 ≤ n by omega)
        dsimp only
        rw [sequence_of_end hf (by rwa [still])]
        exact ⟨noted ++ more, e, rfl, last ▸ blamed⟩

end BeforeStray

namespace Enclosed

variable {B : Enclosed} {stop : Token}

/-- A block in which the braces are balanced is closed by a brace, if not by its own. -/
theorem exists_read (balanced : Balanced B.body) (finish : stop.kind = .finish) :
    ∃ a s front brace rest, Grammar.statement (.recovering (B.tokens ++ [stop])) = .done a s ∧
      s.cursor.ahead = rest ++ [stop] ∧ B.body ++ [B.closing] = front ++ brace :: rest ∧
      brace.kind = .symbol .closeBrace := by
  let s : Stream := .recovering (B.tokens ++ [stop])
  let size := (B.tokens ++ [stop]).length
  have grounded : s.cursor.Grounded :=
    ⟨rfl, stop, List.mem_append_right B.tokens List.mem_cons_self, finish⟩
  have opening : s.cursor.peek.kind = .symbol .openBrace := B.opens
  have left : s.cursor.left < size := grounded.left_lt
  have enough : s.cursor.left ≤ size + 3 := by omega
  have first := grounded.passes_advance (by simp [opening])
  have onward : B.body ++ [B.closing] ++ [stop] = s.cursor.advance.ahead :=
    (List.cons.inj first.ahead).2
  obtain ⟨statements, used, ⟨d, noted⟩, sites, collected, outcome⟩ :=
    exists_block (accountsBelow_statementWithin (size + 3)) grounded nofun enough enough opening
  have hd : d.Grounded := collected.passes.grounded (first.grounded grounded)
  obtain ⟨rest, some, whole, ahead⟩ := (balanced.overclosed B.closes).exists_rest (by simp)
    (by simp [finish, Kind.isBrace]) (onward.trans collected.passes.ahead) (collected.balance rfl)
  obtain ⟨brace, rest, rfl⟩ := List.exists_cons_of_ne_nil some
  have under : d.peek = brace := by
    rw [Cursor.peek, ahead]
    rfl
  have inside : brace.kind ≠ .finish := by
    have member : brace ∈ B.body ++ [B.closing] := by simp [whole]
    obtain member | member := List.mem_append.mp member
    · exact B.inside brace member
    · simp [List.mem_singleton.mp member, B.closes]
  have run : Grammar.statement s = block (statementWithin (size + 3)) (size + 3) s :=
    statementWithin_of_brace grounded opening
  dsimp only at outcome
  rw [under, ← run] at outcome
  obtain ⟨closes, run⟩ | ⟨ended, -⟩ := outcome
  · refine ⟨_, _, used, brace, rest, run, ?_, whole, closes⟩
    have step := hd.passes_advance (under ▸ inside)
    exact (List.cons.inj (ahead.symm.trans step.ahead)).2.symm
  · exact absurd ended inside

theorem atEnd_of_ahead {c : Cursor} (ahead : c.ahead = [] ++ [stop])
    (finish : stop.kind = .finish) :
    c.atEnd = true := by
  rw [Cursor.atEnd, Cursor.peek, ahead]
  exact beq_iff_eq.mpr finish

private theorem closesItself_of_bare (bare : ∀ t ∈ B.body, t.kind.isBrace = false)
    (finish : stop.kind = .finish) :
    B.ClosesItself stop := by
  have none : ∀ front, front <+: B.body → closings front = 0 ∧ openings front = 0 := by
    intro front initial
    unfold closings openings
    simp only [List.countP_eq_zero, decide_eq_true_eq]
    constructor <;> intro t ht hk <;> simpa [hk, Kind.isBrace] using bare t (initial.subset ht)
  have balanced : Balanced B.body :=
    ⟨by rw [(none _ List.prefix_rfl).1, (none _ List.prefix_rfl).2],
      fun front initial => by rw [(none front initial).1]; exact Nat.zero_le _⟩
  obtain ⟨a, s, front, brace, rest, run, ahead, whole, closes⟩ := exists_read balanced finish
  refine ⟨a, s, run, ?_⟩
  obtain rfl | ⟨rest, last, rfl⟩ := rest.eq_nil_or_concat'
  · exact atEnd_of_ahead ahead finish
  · rw [← List.cons_append, ← List.append_assoc] at whole
    have member : brace ∈ B.body := by simp [(List.append_inj' whole rfl).1]
    have := bare brace member
    rw [closes] at this
    contradiction

private theorem closesItself_of_program {program : Program} (finish : stop.kind = .finish)
    (parsed : Program.ofTokens (B.body ++ [stop]) = some (.ok program)) : B.ClosesItself stop := by
  obtain ⟨a, behind, run⟩ := exists_read_of_program finish parsed
  refine ⟨a, ⟨.between behind [stop], some []⟩, ?_, beq_iff_eq.mpr finish⟩
  change statementWithin (Cursor.ofTokens (B.tokens ++ [stop])).reach _ = _
  rw [reach_tokens]
  exact run

private theorem exists_beforeStray (balanced : Balanced B.body) (finish : stop.kind = .finish)
    (unclosed : ¬B.ClosesItself stop) (p : Position) {k : Nat} (wide : B.body.length + 7 ≤ k) :
    ∃ a d noted, statementWithin k ⟨.between [] (B.tokens ++ stray p), some []⟩ =
      .done a ⟨d, some noted⟩ ∧ BeforeStray p B.closing d ∧ d.ahead.length ≤ B.body.length + 3 := by
  obtain ⟨a, ⟨c, noted⟩, front, brace, rest, run, ahead, whole, closes⟩ :=
    exists_read balanced finish
  have some : rest ≠ [] := by
    rintro rfl
    exact unclosed ⟨a, _, run, atEnd_of_ahead ahead finish⟩
  have outcome := agreeToFence finish (ensuing_stray p) wide
  rw [run] at outcome
  generalize statementWithin k _ = o at outcome ⊢
  cases outcome with
  | @done _ _ t arrived =>
    obtain ⟨d, noted'⟩ := t
    obtain ⟨upto, same, recovers⟩ := arrived
    dsimp only at upto same recovers ahead
    subst same
    obtain ⟨noted, rfl⟩ := Option.ne_none_iff_exists'.mp recovers
    refine ⟨a, d, noted, rfl, ?_⟩
    cases upto with
    | behind =>
      have ahead : [] ++ [stop] = rest ++ [stop] := ahead
      exact absurd (List.append_cancel_right ahead).symm some
    | before front =>
      obtain @⟨behind, left, fenced⟩ := front
      cases List.append_cancel_right ahead
      have last : rest.getLast? = Option.some B.closing := by
        have final := congrArg List.getLast? whole
        rwa [List.getLast?_concat, List.getLast?_append_of_ne_nil _ (List.cons_ne_nil _ _),
          List.getLast?_cons_of_ne_nil some, eq_comm] at final
      have excess : Overclosed rest := by
        have excess := balanced.overclosed B.closes
        rw [whole] at excess
        exact (show Overclosed ((front ++ [brace]) ++ rest) by simpa using excess).of_append
      have length := congrArg List.length whole
      refine ⟨⟨rfl, rest, rfl, last, excess, fenced.inside⟩, ?_⟩
      change (rest ++ stray p).length ≤ _
      simp only [List.length_append, List.length_cons, List.length_nil, stray] at length ⊢
      omega

/-- If another brace closes the block, the fault of the stray behind it is missed. -/
theorem closesItself_of_confines (balanced : Balanced B.body) (finish : stop.kind = .finish)
    (h : B.Confines) : B.ClosesItself stop := by
  by_contra early
  let p : Position := { B.closing.position with index := B.closing.position.index + 1 }
  have ended : ∃ t ∈ stray p, t.kind = .finish := ⟨.finish p, by simp [stray], rfl⟩
  have ended' : ∃ t ∈ B.tokens ++ stray p, t.kind = .finish := ⟨.finish p, by simp [stray], rfl⟩
  let size := B.body.length + 7
  have bound : (B.tokens ++ stray p).length ≤ size + 1 := by
    simp only [List.length_append, length_tokens, stray, List.length_cons, List.length_nil, size]
    omega
  obtain ⟨all, total, run⟩ := Program.exists_faults ended'
  obtain ⟨a, d, noted, read, before, short⟩ :=
    exists_beforeStray balanced finish early p (show B.body.length + 7 ≤ size + 1 by omega)
  have left := before.grounded.left_lt
  obtain ⟨earlier, e, missed, blamed⟩ :=
    before.exists_missed B.closes (show d.left < size + 1 by omega)
      (show d.left < size by omega) noted
  have whole := run bound bound [] []
  rw [sequence_tokens ended, round_eq, read] at whole
  dsimp only at whole
  rw [reports_bind_pure, missed, List.nil_append] at whole
  obtain ⟨inner, outer, found, found', -⟩ :=
    h [⟨.symbol .plus, p⟩, ⟨.symbol .semicolon, p⟩] (.finish p)
      (by simp [Token.kind, Lexeme.symbol])
      (fun t first => by cases first; simp [Token.kind, Lexeme.symbol]) rfl
  rw [List.append_assoc] at found'
  have one : outer = [⟨.noExpression "'+'", p⟩] :=
    Option.some.inj (found.symm.trans (faults_stray p))
  have same : inner ++ outer = earlier ++ [e] :=
    (Option.some.inj (found'.symm.trans total)).trans whole.symm
  rw [one] at same
  cases (List.append_inj' same rfl).2
  have index : B.closing.position.index + 1 = B.closing.position.index :=
    congrArg Position.index blamed.2
  omega

/-- A block with balanced braces leaves what follows in order just if, read alone, it is closed by
its own brace. It is if it holds no brace, however broken it is, or if it holds a program. -/
theorem confines_iff_closesItself (balanced : Balanced B.body) (finish : stop.kind = .finish) :
    (B.Confines ↔ B.ClosesItself stop) ∧
      ((∀ t ∈ B.body, t.kind.isBrace = false) → B.Confines) ∧
      ∀ program, Program.ofTokens (B.body ++ [stop]) = some (.ok program) → B.Confines :=
  ⟨⟨closesItself_of_confines balanced finish, confines_of_closesItself finish⟩,
    fun bare => confines_of_closesItself finish (closesItself_of_bare bare finish),
    fun _ parsed => confines_of_closesItself finish (closesItself_of_program finish parsed)⟩

/-- Inside `{ lekh + ; { } }` a fault is followed by a block, and behind it comes a fault that both
have together and that the second has alone. -/
theorem confines_iff_closesItself_nested :
    let B : Enclosed := {
      opening := ⟨.symbol .openBrace, ⟨1, 1, 0⟩⟩
      body := [⟨.keyword .lekh, ⟨1, 3, 2⟩⟩, ⟨.symbol .plus, ⟨1, 8, 7⟩⟩,
        ⟨.symbol .semicolon, ⟨1, 10, 9⟩⟩, ⟨.symbol .openBrace, ⟨1, 12, 11⟩⟩,
        ⟨.symbol .closeBrace, ⟨1, 14, 13⟩⟩]
      closing := ⟨.symbol .closeBrace, ⟨1, 16, 15⟩⟩
      opens := rfl
      closes := rfl
      inside := by decide }
    let stop : Token := .finish ⟨1, 17, 16⟩
    Balanced B.body ∧ B.ClosesItself stop ∧ B.Confines := by
  intro B stop
  have balanced : Balanced B.body := by decide
  have closed : B.ClosesItself stop := by decide +kernel
  have finish : stop.kind = .finish := rfl
  exact ⟨balanced, closed, (confines_iff_closesItself balanced finish).1.mpr closed⟩

/-- In `{ yadi x { } }` the word `bhane` is missing. Recovery passes the brace behind `x` without
counting it, the next brace closes the block, and the fault at the last brace hides the one behind
it. -/
theorem not_confines_yadi :
    let B : Enclosed := {
      opening := ⟨.symbol .openBrace, ⟨1, 1, 0⟩⟩
      body := [⟨.keyword .yadi, ⟨1, 3, 2⟩⟩, ⟨⟨.name, some (.name "x"), "x"⟩, ⟨1, 8, 7⟩⟩,
        ⟨.symbol .openBrace, ⟨1, 10, 9⟩⟩, ⟨.symbol .closeBrace, ⟨1, 12, 11⟩⟩]
      closing := ⟨.symbol .closeBrace, ⟨1, 14, 13⟩⟩
      opens := rfl
      closes := rfl
      inside := by decide }
    let rest : List Token := [⟨.symbol .plus, ⟨1, 16, 15⟩⟩, ⟨.symbol .semicolon, ⟨1, 18, 17⟩⟩]
    let stop : Token := .finish ⟨1, 19, 18⟩
    Balanced B.body ∧
      Program.faults (rest ++ [stop]) = some [⟨.noExpression "'+'", ⟨1, 16, 15⟩⟩] ∧
      Program.faults (B.tokens ++ rest ++ [stop]) =
        some [⟨.unexpected "'bhane'" "'\x7b'", ⟨1, 10, 9⟩⟩, ⟨.noExpression "'\x7d'", ⟨1, 14, 13⟩⟩] ∧
      ¬B.Confines := by
  intro B rest stop
  have balanced : Balanced B.body := by decide
  have alone : Program.faults (rest ++ [stop]) = some [⟨.noExpression "'+'", ⟨1, 16, 15⟩⟩] := by
    dsimp only [rest, stop]
    cbv
  have behind : Program.faults (B.tokens ++ rest ++ [stop]) =
      some [⟨.unexpected "'bhane'" "'\x7b'", ⟨1, 10, 9⟩⟩,
        ⟨.noExpression "'\x7d'", ⟨1, 14, 13⟩⟩] := by
    dsimp only [B, rest, stop, tokens]
    cbv
  refine ⟨balanced, alone, behind, ?_⟩
  intro confines
  obtain ⟨inner, outer, found, found', -⟩ :=
    confines rest stop (by decide) (fun t first => by cases first; decide) rfl
  rw [alone] at found
  rw [behind] at found'
  cases found
  have last := congrArg List.getLast? (Option.some.inj found')
  rw [List.getLast?_concat] at last
  exact absurd last (by decide)

end Enclosed

end DaiScript
