import DaiScript.Proofs.StatementSound

/-! A stream that recovers and one that does not agree up to the first fault. The plain stream hands
that fault through every enclosing sequence; the other one notes it in the innermost and goes on,
and what is noted is never taken back. -/
namespace DaiScript.Grammar

open Reading

/-- Every fault that an outcome tells of: those noted, and then the one it ends with. -/
def reports : Outcome SyntaxError Stream α → List SyntaxError
  | .done _ s => s.faults
  | .failed e s => s.faults ++ [e]
  | .endless => []

def Leaves (o : Outcome SyntaxError Stream α) (d : Stream) : Prop :=
  (∃ a, o = .done a d) ∨ ∃ e, o = .failed e d

def Extends (p : Parsing α) : Prop :=
  ∀ c faults d, Leaves (p ⟨c, some faults⟩) d → ∃ more, d.noted = some (faults ++ more)

/-- What a plain stream returns, a recovering one returns without noting a fault; and a fault that a
plain stream hands on is the first that a recovering one reports. -/
structure Agrees (p : Parsing α) : Prop where
  grows : Extends p
  done : ∀ {c a d}, p ⟨c, none⟩ = .done a d →
    d.noted = none ∧ ∀ faults, p ⟨c, some faults⟩ = .done a ⟨d.cursor, some faults⟩
  failed : ∀ {c e d}, p ⟨c, none⟩ = .failed e d → d.noted = none ∧
    ∀ faults, p ⟨c, some faults⟩ ≠ .endless → faults ++ [e] <+: reports (p ⟨c, some faults⟩)

/-! ### What is noted stays -/

namespace Extends

theorem state {p : Parsing α} (h : Extends p) {c : Cursor} {faults : List SyntaxError} {d : Stream}
    (left : Leaves (p ⟨c, some faults⟩) d) :
    ∃ cursor more, d = ⟨cursor, some (faults ++ more)⟩ := by
  obtain ⟨more, noted⟩ := h c faults d left
  obtain ⟨cursor, _⟩ := d
  exact ⟨cursor, more, by rw [← noted]⟩

theorem reports_append {p : Parsing α} (h : Extends p) {c : Cursor} {faults : List SyntaxError}
    (ends : p ⟨c, some faults⟩ ≠ .endless) : faults <+: reports (p ⟨c, some faults⟩) := by
  cases run : p ⟨c, some faults⟩ with
  | endless => exact absurd run ends
  | done a d =>
    obtain ⟨cursor, more, rfl⟩ := h.state (.inl ⟨a, run⟩)
    exact ⟨more, by simp [reports, Stream.faults]⟩
  | failed e d =>
    obtain ⟨cursor, more, rfl⟩ := h.state (.inr ⟨e, run⟩)
    exact ⟨more ++ [e], by simp [reports, Stream.faults]⟩

theorem under (r : Reading α) : Extends (under r) := by
  intro c faults d left
  rw [under_apply] at left
  refine ⟨[], ?_⟩
  obtain ⟨a, run⟩ | ⟨e, run⟩ := left <;> cases hr : r c <;> simp [hr, Outcome.mapState] at run <;>
    simp [← run.2]

theorem bind {p : Parsing α} {next : α → Parsing β} (h : Extends p) (k : ∀ a, Extends (next a)) :
    Extends (p >>= next) := by
  intro c faults f left
  have onward : ∀ {a d}, p ⟨c, some faults⟩ = .done a d → Leaves (next a d) f →
      ∃ more, f.noted = some (faults ++ more) := by
    intro a d first second
    obtain ⟨cursor, more, rfl⟩ := h.state (.inl ⟨a, first⟩)
    obtain ⟨rest, noted⟩ := k a cursor _ f second
    exact ⟨more ++ rest, by rw [noted, List.append_assoc]⟩
  obtain ⟨b, run⟩ | ⟨e, run⟩ := left
  · obtain ⟨a, d, first, second⟩ := Process.bind_eq_done_iff.mp run
    exact onward first (.inl ⟨b, second⟩)
  · obtain first | ⟨a, d, first, second⟩ := Process.bind_eq_failed_iff.mp run
    · exact h c faults f (.inr ⟨e, first⟩)
    · exact onward first (.inr ⟨e, second⟩)

theorem attempt {p : Parsing α} (h : Extends p) : Extends (Process.attempt p) := by
  intro c faults d left
  apply h c faults d
  unfold Process.attempt Leaves at left
  cases first : p ⟨c, some faults⟩ <;> simp [first] at left <;> simp [Leaves, left]

private theorem reports_bind {p : Parsing α} {next : α → Parsing β} (h : Extends p)
    (k : ∀ a, Extends (next a)) {c : Cursor} {faults : List SyntaxError}
    (ends : (p >>= next) ⟨c, some faults⟩ ≠ .endless) :
    p ⟨c, some faults⟩ ≠ .endless ∧
      reports (p ⟨c, some faults⟩) <+: reports ((p >>= next) ⟨c, some faults⟩) := by
  rw [Process.bind_apply] at ends ⊢
  cases run : p ⟨c, some faults⟩ with
  | endless => simp [run] at ends
  | failed e d => exact ⟨by simp, List.prefix_refl _⟩
  | done a d =>
    obtain ⟨cursor, more, rfl⟩ := h.state (.inl ⟨a, run⟩)
    rw [run] at ends
    exact ⟨by simp, (k a).reports_append ends⟩

end Extends

/-! ### Recovery -/

private theorem seekStatement_ne_failed (bound : Nat) (c d : Cursor) (e : SyntaxError) :
    seekStatement bound c ≠ .failed e d := by
  induction bound generalizing c with
  | zero => intro run; cases run
  | succ bound ih =>
    change (if _ then Pure.pure () else advance >>= fun _ =>
      seekStatement bound : Reading Unit) c ≠ _
    split
    · intro run; cases run
    · exact ih c.advance

def resumed (closing : Kind) (c : Cursor) : Outcome SyntaxError Cursor Unit :=
  if c.check closing then .done () c else synchronize c

theorem resumed_ne_failed (closing : Kind) (c d : Cursor) (e : SyntaxError) :
    resumed closing c ≠ .failed e d := by
  unfold resumed
  split
  · intro run; cases run
  · exact seekStatement_ne_failed _ c.advance d e

theorem recover_eq (fault : SyntaxError) (closing : Kind) (s : Stream) :
    recover fault closing s =
      match resumed closing s.cursor, s.noted with
      | .done _ d, some faults => .done () ⟨d, some (faults ++ [fault])⟩
      | .done _ d, none => .failed fault ⟨d, none⟩
      | .failed e d, noted => .failed e ⟨d, noted⟩
      | .endless, _ => .endless := by
  obtain ⟨c, noted⟩ := s
  change (if c.check closing = true then _ else under synchronize >>= _ : Parsing Unit) _ = _
  unfold resumed
  by_cases resting : c.check closing = true
  · rw [if_pos resting, if_pos resting]
    cases noted <;> rfl
  · rw [if_neg resting, if_neg resting, Process.bind_apply, under_apply]
    cases synchronize c <;> cases noted <;> rfl

theorem recover_recovering (fault : SyntaxError) (closing : Kind) (c : Cursor)
    (faults : List SyntaxError) :
    recover fault closing ⟨c, some faults⟩ = .endless ∨
      ∃ d, recover fault closing ⟨c, some faults⟩ = .done () ⟨d, some (faults ++ [fault])⟩ := by
  rw [recover_eq]
  cases run : resumed closing c with
  | endless => exact .inl rfl
  | failed e d => exact absurd run (resumed_ne_failed closing c d e)
  | done _ d => exact .inr ⟨d, rfl⟩

theorem recover_plain (fault : SyntaxError) (closing : Kind) (c : Cursor) :
    recover fault closing ⟨c, none⟩ = .endless ∨
      ∃ d, recover fault closing ⟨c, none⟩ = .failed fault ⟨d, none⟩ := by
  rw [recover_eq]
  cases run : resumed closing c with
  | endless => exact .inl rfl
  | failed e d => exact absurd run (resumed_ne_failed closing c d e)
  | done _ d => exact .inr ⟨d, rfl⟩

/-! ### Agreement -/

namespace Agrees

theorem under (r : Reading α) : Agrees (under r) where
  grows := .under r
  done := by
    intro c a d run
    rw [under_apply] at run
    cases hr : r c <;> simp [hr, Outcome.mapState] at run
    simp [← run.1, ← run.2, under_apply, hr, Outcome.mapState]
  failed := by
    intro c e d run
    rw [under_apply] at run
    cases hr : r c <;> simp [hr, Outcome.mapState] at run
    simp [← run.1, ← run.2, under_apply, hr, Outcome.mapState, reports, Stream.faults]

theorem of_under {p : Parsing α} {r : Reading α} (same : p = Grammar.under r) : Agrees p :=
  same ▸ .under r

theorem pure (a : α) : Agrees (Pure.pure a) :=
  of_under (r := Pure.pure a) rfl

theorem endless : Agrees (Process.endless : Parsing α) :=
  of_under (r := Process.endless) rfl

theorem done_state {p : Parsing α} (h : Agrees p) {c : Cursor} {a : α} {d : Stream}
    (run : p ⟨c, none⟩ = .done a d) :
    ∃ cursor, d = ⟨cursor, none⟩ ∧
      ∀ faults, p ⟨c, some faults⟩ = .done a ⟨cursor, some faults⟩ := by
  obtain ⟨plain, same⟩ := h.done run
  exact ⟨d.cursor, by rw [← plain], same⟩

theorem failed_state {p : Parsing α} (h : Agrees p) {c : Cursor} {e : SyntaxError} {d : Stream}
    (run : p ⟨c, none⟩ = .failed e d) : ∃ cursor, d = ⟨cursor, none⟩ :=
  ⟨d.cursor, by rw [← (h.failed run).1]⟩

theorem bind {p : Parsing α} {next : α → Parsing β} (h : Agrees p) (k : ∀ a, Agrees (next a)) :
    Agrees (p >>= next) where
  grows := h.grows.bind fun a => (k a).grows
  done := by
    intro c b f run
    obtain ⟨a, d, first, second⟩ := Process.bind_eq_done_iff.mp run
    obtain ⟨cursor, rfl, same⟩ := h.done_state first
    obtain ⟨plain, same'⟩ := (k a).done second
    refine ⟨plain, fun faults => ?_⟩
    rw [Process.bind_apply, same faults]
    exact same' faults
  failed := by
    intro c e f run
    obtain first | ⟨a, d, first, second⟩ := Process.bind_eq_failed_iff.mp run
    · -- The recovering stream has the fault among its reports already, and only adds to them.
      obtain ⟨plain, reported⟩ := h.failed first
      refine ⟨plain, fun faults ends => ?_⟩
      obtain ⟨ends', kept⟩ := h.grows.reports_bind (fun a => (k a).grows) ends
      exact (reported faults ends').trans kept
    · obtain ⟨cursor, rfl, same⟩ := h.done_state first
      obtain ⟨plain, reported⟩ := (k a).failed second
      refine ⟨plain, fun faults ends => ?_⟩
      rw [Process.bind_apply, same faults] at ends ⊢
      exact reported faults ends

theorem recover (fault : SyntaxError) (closing : Kind) : Agrees (recover fault closing) where
  grows := by
    intro c faults d left
    obtain run | ⟨d', run⟩ := recover_recovering fault closing c faults
    · simp [Leaves, run] at left
    · simp [Leaves, run] at left
      exact ⟨[fault], by simp [← left]⟩
  done := by
    intro c a d run
    obtain run' | ⟨d', run'⟩ := recover_plain fault closing c <;> simp [run'] at run
  failed := by
    intro c e d run
    obtain run' | ⟨d', run'⟩ := recover_plain fault closing c <;> simp [run'] at run
    obtain ⟨rfl, rfl⟩ := run
    refine ⟨rfl, fun faults ends => ?_⟩
    obtain run | ⟨d'', run⟩ := recover_recovering fault closing c faults
    · exact absurd run ends
    · simp [run, reports, Stream.faults]

end Agrees

def round (statement : Parsing Stmt) (closing : Kind) (more : Parsing (List Stmt)) :
    Parsing (List Stmt) := do
  match ← Process.attempt statement with
  | .ok first =>
    let rest ← more
    return first :: rest
  | .error fault =>
    recover fault closing
    more

theorem round_eq (statement : Parsing Stmt) (closing : Kind) (more : Parsing (List Stmt))
    (s : Stream) :
    round statement closing more s =
      match statement s with
      | .done first d => (more >>= fun rest => Pure.pure (first :: rest)) d
      | .failed fault d => (recover fault closing >>= fun _ => more) d
      | .endless => .endless := by
  unfold round
  rw [Process.bind_apply, Process.attempt_apply]
  cases statement s <;> rfl

theorem sequence_succ (statement : Parsing Stmt) (closing : Kind) (bound : Nat) :
    sequence statement closing (bound + 1) = (do
      under skipNewlines
      if ← under (Process.read fun c => c.atEnd || c.check closing) then return []
      else round statement closing (sequence statement closing bound)) := rfl

private theorem Extends.reports_round {statement : Parsing Stmt} (h : Extends statement)
    (closing : Kind) {more : Parsing (List Stmt)} (k : Extends more) {c : Cursor}
    {faults : List SyntaxError} (ends : round statement closing more ⟨c, some faults⟩ ≠ .endless) :
    statement ⟨c, some faults⟩ ≠ .endless ∧
      reports (statement ⟨c, some faults⟩) <+:
        reports (round statement closing more ⟨c, some faults⟩) := by
  rw [round_eq] at ends ⊢
  cases run : statement ⟨c, some faults⟩ with
  | endless => simp [run] at ends
  | done a d =>
    obtain ⟨cursor, noted, rfl⟩ := h.state (.inl ⟨a, run⟩)
    rw [run] at ends
    exact ⟨by simp, (k.bind fun _ => (Agrees.pure _).grows).reports_append ends⟩
  | failed e d =>
    obtain ⟨cursor, noted, rfl⟩ := h.state (.inr ⟨e, run⟩)
    rw [run] at ends
    dsimp only at ends ⊢
    rw [Process.bind_apply] at ends ⊢
    obtain stuck | ⟨d, resumed⟩ := recover_recovering e closing cursor (faults ++ noted)
    · simp [stuck] at ends
    · rw [resumed] at ends ⊢
      exact ⟨by simp, k.reports_append ends⟩

theorem round_plain {statement : Parsing Stmt} (closing : Kind) (more : Parsing (List Stmt))
    {c cursor : Cursor} {fault : SyntaxError}
    (run : statement ⟨c, none⟩ = .failed fault ⟨cursor, none⟩) :
    round statement closing more ⟨c, none⟩ = .endless ∨
      ∃ d, round statement closing more ⟨c, none⟩ = .failed fault ⟨d, none⟩ := by
  rw [round_eq, run]
  dsimp only
  rw [Process.bind_apply]
  obtain stuck | ⟨d, handed⟩ := recover_plain fault closing cursor
  · exact .inl (by rw [stuck])
  · exact .inr ⟨d, by rw [handed]⟩

namespace Agrees

/-- A plain stream hands the fault of a statement on at once. The other stream may have noted it
inside the statement already, or notes it now. -/
theorem round {statement : Parsing Stmt} (h : Agrees statement) (closing : Kind)
    {more : Parsing (List Stmt)} (k : Agrees more) : Agrees (round statement closing more) := by
  have onward : ∀ a, Agrees (more >>= fun rest => Pure.pure (a :: rest)) :=
    fun a => k.bind fun rest => .pure (a :: rest)
  refine ⟨?_, ?_, ?_⟩
  · apply h.grows.attempt.bind
    intro outcome
    cases outcome with
    | ok a => exact (onward a).grows
    | error e => exact (Agrees.recover e closing).grows.bind fun _ => k.grows
  · intro c body f run
    cases first : statement ⟨c, none⟩ with
    | endless => simp [round_eq, first] at run
    | failed e d =>
      obtain ⟨cursor, rfl⟩ := h.failed_state first
      obtain stuck | ⟨d, handed⟩ := round_plain closing more first
      · simp [stuck] at run
      · simp [handed] at run
    | done a d =>
      rw [round_eq, first] at run
      obtain ⟨cursor, rfl, same⟩ := h.done_state first
      obtain ⟨plain, same'⟩ := (onward a).done run
      refine ⟨plain, fun faults => ?_⟩
      rw [round_eq, same faults]
      exact same' faults
  · intro c e f run
    cases first : statement ⟨c, none⟩ with
    | endless => simp [round_eq, first] at run
    | done a d =>
      rw [round_eq, first] at run
      obtain ⟨cursor, rfl, same⟩ := h.done_state first
      obtain ⟨plain, reported⟩ := (onward a).failed run
      refine ⟨plain, fun faults ends => ?_⟩
      rw [round_eq, same faults] at ends ⊢
      exact reported faults ends
    | failed e' d =>
      obtain ⟨cursor, rfl⟩ := h.failed_state first
      obtain ⟨-, reported⟩ := h.failed first
      obtain stuck | ⟨d, handed⟩ := round_plain closing more first
      · simp [stuck] at run
      rw [handed] at run
      cases run
      refine ⟨rfl, fun faults ends => ?_⟩
      obtain ⟨ends', kept⟩ := h.grows.reports_round closing k.grows ends
      exact (reported faults ends').trans kept

theorem sequence {statement : Parsing Stmt} (h : Agrees statement) (closing : Kind) (bound : Nat) :
    Agrees (sequence statement closing bound) := by
  induction bound with
  | zero => exact .endless
  | succ bound ih =>
    rw [sequence_succ]
    apply (Agrees.under _).bind
    intro _
    apply (Agrees.under _).bind
    intro stop
    split
    · exact .pure []
    · exact h.round closing ih

theorem block {statement : Parsing Stmt} (h : Agrees statement) (bound : Nat) :
    Agrees (block statement bound) := by
  apply (Agrees.under _).bind
  intro _
  apply (h.sequence _ bound).bind
  intro body
  apply (Agrees.under _).bind
  intro _
  exact .pure _

theorem branch {statement : Parsing Stmt} (h : Agrees statement) : Agrees (branch statement) := by
  apply (Agrees.under _).bind
  intro test
  apply (Agrees.under _).bind
  intro _
  apply h.bind
  intro consequent
  apply (Agrees.of_under (r := Process.read id) rfl).bind
  intro here
  apply (Agrees.under _).bind
  intro _
  apply (Agrees.under _).bind
  intro natra
  split
  · exact h.bind fun _ => .pure _
  · exact (Agrees.under _).bind fun _ => .pure _

theorem statementWithin (bound : Nat) : Agrees (statementWithin bound) := by
  induction bound with
  | zero => exact .endless
  | succ bound ih =>
    apply (Agrees.under _).bind
    intro _
    apply (Agrees.under _).bind
    intro token
    split
    · exact (Agrees.under _).bind fun _ => ih.branch
    · apply (Agrees.under _).bind
      intro _
      apply (Agrees.under _).bind
      intro test
      exact ih.bind fun _ => .pure _
    · exact ih.block bound
    · exact .under simple

end Agrees

/-! ### Programs -/

theorem agrees_statements (closing : Kind) : Agrees (statements closing) := by
  have within : ∀ bound, Agrees (sequence (statementWithin bound) closing bound) :=
    fun bound => (Agrees.statementWithin bound).sequence closing bound
  refine ⟨?_, ?_, ?_⟩
  · intro c faults d left
    exact (within c.reach).grows c faults d left
  · intro c a d run
    exact (within c.reach).done run
  · intro c e d run
    exact (within c.reach).failed run

theorem statements_ends {tokens : List Token} (ended : tokens = [] ∨ ∃ t ∈ tokens, t.kind = .finish)
    (noted : Option (List SyntaxError)) :
    statements .finish ⟨.ofTokens tokens, noted⟩ ≠ .endless := by
  obtain rfl | ended := ended
  · intro run
    cases run
  · exact (parses_statements (s := ⟨.ofTokens tokens, noted⟩) ⟨rfl, ended⟩).not_endless

theorem faults_eq {tokens : List Token}
    (ends : statements .finish (.recovering tokens) ≠ .endless) :
    Program.faults tokens = some (reports (statements .finish (.recovering tokens))) := by
  unfold Program.faults
  cases run : statements .finish (.recovering tokens) with
  | endless => exact absurd run ends
  | _ => rfl

/-- Reading a program and listing its faults agree: both end; a program without faults is what a
recovering stream reads too; and the fault for which reading stops is the first of the list. -/
theorem faults_of_ofTokens {tokens : List Token}
    (ended : tokens = [] ∨ ∃ t ∈ tokens, t.kind = .finish) :
    Program.ofTokens tokens ≠ none ∧
      (∀ program, Program.ofTokens tokens = some (.ok program) →
        Program.faults tokens = some [] ∧
          (statements .finish (.recovering tokens)).result = some (.ok program)) ∧
      ∀ fault, Program.ofTokens tokens = some (.error fault) →
        ∃ more, Program.faults tokens = some (fault :: more) := by
  have ends : statements .finish (.recovering tokens) ≠ .endless := statements_ends ended (some [])
  have agrees := agrees_statements .finish
  rw [faults_eq ends]
  unfold Program.ofTokens
  cases run : statements .finish (.plain tokens) with
  | endless => exact absurd run (statements_ends ended none)
  | done body d =>
    obtain ⟨-, same⟩ := agrees.done run
    have recovering : statements .finish (.recovering tokens) = .done body ⟨d.cursor, some []⟩ :=
      same []
    simp [recovering, Outcome.result, reports, Stream.faults]
  | failed e d =>
    obtain ⟨-, reported⟩ := agrees.failed run
    obtain ⟨more, hmore⟩ := reported [] ends
    have first : reports (statements .finish (.recovering tokens)) = e :: more := hmore.symm
    simp [Outcome.result, first]

theorem faults_of_ofTokens_block :
    let start : List Token := [⟨.symbol .openBrace, ⟨1, 1, 0⟩⟩, ⟨.keyword .lekh, ⟨1, 3, 2⟩⟩]
    let faulty := start ++ [⟨.symbol .plus, ⟨1, 8, 7⟩⟩, ⟨.symbol .semicolon, ⟨1, 9, 8⟩⟩,
      ⟨.symbol .closeBrace, ⟨1, 11, 10⟩⟩, ⟨.keyword .solti, ⟨1, 13, 12⟩⟩, .finish ⟨1, 18, 17⟩]
    let sound := start ++ [⟨.symbol .semicolon, ⟨1, 7, 6⟩⟩, ⟨.symbol .closeBrace, ⟨1, 9, 8⟩⟩,
      .finish ⟨1, 10, 9⟩]
    let fault : SyntaxError := ⟨.noExpression "'+'", ⟨1, 8, 7⟩⟩
    let program : Program := [.block [.print [] ⟨1, 3, 2⟩]]
    (Program.ofTokens faulty = some (.error fault) ∧
      ∃ more, Program.faults faulty = some (fault :: more)) ∧
    Program.ofTokens sound = some (.ok program) ∧ Program.faults sound = some [] := by
  intro start faulty sound fault program
  have failed : Program.ofTokens faulty = some (.error fault) := by
    dsimp only [start, faulty, fault]
    cbv
  have parsed : Program.ofTokens sound = some (.ok program) := by
    dsimp only [start, sound, program]
    cbv
  have ended : ∃ t ∈ faulty, t.kind = .finish := ⟨.finish ⟨1, 18, 17⟩, by simp [faulty], rfl⟩
  have ended' : ∃ t ∈ sound, t.kind = .finish := ⟨.finish ⟨1, 10, 9⟩, by simp [sound], rfl⟩
  exact ⟨⟨failed, (faults_of_ofTokens (.inr ended)).2.2 fault failed⟩,
    parsed, ((faults_of_ofTokens (.inr ended')).2.1 program parsed).1⟩

end DaiScript.Grammar
