import DaiScript.Proofs.Printer
import DaiScript.Proofs.StatementSound

/-! Only regular trees are ever read, whatever the tokens are. A statement that is dangling ends
where no `natra` follows on the same or a later line, so a conditional around it cannot find one. -/
namespace DaiScript

structure Returns (p : Process ε σ α) (s : σ) (post : α → σ → Prop) : Prop where
  of_done : ∀ {a d}, p s = .done a d → post a d

namespace Returns

variable {p : Process ε σ α} {next : α → Process ε σ β} {s : σ} {post : β → σ → Prop}

theorem pure {b : β} (h : post b s) : Returns (Pure.pure b : Process ε σ β) s post := by
  constructor
  intro a d run
  cases run
  exact h

theorem absurd {q : Process ε σ β} (h : ∀ b d, q s ≠ .done b d) : Returns q s post :=
  ⟨fun run => (h _ _ run).elim⟩

theorem congr {p q : Process ε σ β} {d : σ} (run : p s = q d) (h : Returns q d post) :
    Returns p s post :=
  ⟨fun done => h.of_done (run ▸ done)⟩

theorem bind {middle : α → σ → Prop} (h : Returns p s middle)
    (k : ∀ a d, middle a d → Returns (next a) d post) : Returns (p >>= next) s post := by
  constructor
  intro b f run
  obtain ⟨a, d, first, second⟩ := Process.bind_eq_done_iff.mp run
  exact (k a d (h.of_done first)).of_done second

theorem step (k : ∀ a d, Returns (next a) d post) : Returns (p >>= next) s post := by
  have known : Returns p s fun _ _ => True := ⟨fun _ => trivial⟩
  exact known.bind fun a d _ => k a d

theorem attempt {middle : α → σ → Prop} (h : Returns p s middle) :
    Returns (Process.attempt p) s fun result d => ∀ a, result = .ok a → middle a d := by
  constructor
  intro result d run a same
  rw [Process.attempt_apply] at run
  cases first : p s with
  | done b f =>
    rw [first] at run
    cases run
    cases same
    exact h.of_done first
  | failed e f =>
    rw [first] at run
    cases run
    cases same
  | endless =>
    rw [first] at run
    cases run

end Returns

namespace Grammar

open Reading

/-! ### Expressions -/

section

variable {expr : Reading Expr} (h : ∀ c, Returns expr c fun e _ => e.regular = true)
include h

private theorem returns_moreItems (bound : Nat) (c : Cursor) :
    Returns (moreItems expr bound) c fun es _ => Expr.allRegular es = true := by
  induction bound generalizing c with
  | zero => exact .absurd nofun
  | succ bound ih =>
    apply Returns.step
    intro comma d
    cases comma with
    | none => exact .pure rfl
    | some _ =>
      apply (h d).bind
      intro e d first
      apply (ih d).bind
      intro es d more
      exact .pure (by simp [Expr.allRegular, first, more])

theorem returns_items (bound : Nat) (c : Cursor) :
    Returns (items expr bound) c fun es _ => Expr.allRegular es = true := by
  apply (h c).bind
  intro e d first
  apply (returns_moreItems h bound d).bind
  intro es d more
  exact .pure (by simp [Expr.allRegular, first, more])

theorem returns_closedItems (bound : Nat) (symbol : Symbol) (delimiter : Char) (c : Cursor) :
    Returns (closedItems expr bound symbol delimiter) c fun es _ => Expr.allRegular es = true := by
  apply Returns.step
  intro closing d
  cases closing with
  | some _ => exact .pure rfl
  | none =>
    apply (returns_items h bound d).bind
    intro es d all
    exact .step fun _ _ => .pure all

private theorem returns_primary (bound : Nat) (c : Cursor) :
    Returns (primary expr bound) c fun e _ => e.regular = true := by
  apply Returns.step
  intro token d
  split
  · exact .step fun _ _ => .pure rfl
  · split
    · exact .step fun _ _ => .pure rfl
    · apply Returns.step
      intro _ d
      apply (h d).bind
      intro e d inner
      exact .step fun _ _ => .pure inner
    · apply Returns.step
      intro _ d
      apply (returns_closedItems h bound _ _ d).bind
      intro es d all
      exact .pure all
    · exact .absurd nofun

private theorem returns_calls (outer bound : Nat) {callee : Expr} (target : callee.regular = true)
    (c : Cursor) : Returns (calls expr outer bound callee) c fun e _ => e.regular = true := by
  induction bound generalizing callee c with
  | zero => exact .absurd nofun
  | succ bound ih =>
    apply Returns.step
    intro paren d
    cases paren with
    | none => exact .pure target
    | some _ =>
      apply (returns_closedItems h outer _ _ d).bind
      intro es d all
      exact ih (by simp [Expr.regular, target, all]) d

private theorem returns_updated (bound : Nat) (c : Cursor) :
    Returns (updated expr bound) c fun e _ => e.regular = true := by
  have target : Returns (call expr bound) c fun e _ => e.regular = true := by
    apply (returns_primary h bound c).bind
    intro e d inner
    exact returns_calls h bound bound inner d
  apply target.bind
  intro e d inner
  apply Returns.step
  intro token d
  split
  · exact .step fun _ _ => .pure (by simp [Expr.regular, inner])
  · exact .pure inner

private theorem returns_unary (bound : Nat) (c : Cursor) :
    Returns (unary expr bound) c fun e _ => e.regular = true := by
  induction bound generalizing c with
  | zero => exact .absurd nofun
  | succ bound ih =>
    apply Returns.step
    intro token d
    split
    · apply Returns.step
      intro _ d
      apply (ih d).bind
      intro e d inner
      exact .pure inner
    · exact returns_updated h bound d

private theorem returns_chain (level bound : Nat) {left : Expr} (start : left.regular = true)
    (c : Cursor) :
    Returns (chain level expr bound left) c fun e _ => e.regular = true := by
  induction bound generalizing left c with
  | zero => exact .absurd nofun
  | succ bound ih =>
    apply Returns.step
    intro token d
    split
    · apply Returns.step
      intro _ d
      apply (h d).bind
      intro right d operand
      exact ih (by simp [Expr.regular, start, operand]) d
    · exact .pure start

private theorem returns_binary (bound level : Nat) (c : Cursor) :
    Returns (binary expr bound level) c fun e _ => e.regular = true := by
  induction level generalizing c with
  | zero => exact returns_unary h bound c
  | succ level ih =>
    apply (ih c).bind
    intro left d start
    exact returns_chain ih (level + 1) bound start d

private theorem returns_assignment (bound : Nat) (c : Cursor) :
    Returns (assignment expr bound) c fun e _ => e.regular = true := by
  apply (returns_binary h bound 7 c).bind
  intro target d left
  apply Returns.step
  intro token d
  split
  · apply Returns.step
    intro _ d
    apply (h d).bind
    intro value d right
    exact .pure (by simp [Expr.regular, left, right])
  · exact .pure left

end

theorem returns_expressionWithin (bound : Nat) (c : Cursor) :
    Returns (expressionWithin bound) c fun e _ => e.regular = true := by
  induction bound generalizing c with
  | zero => exact .absurd nofun
  | succ bound ih => exact returns_assignment ih bound c

theorem returns_expression (c : Cursor) : Returns expression c fun e _ => e.regular = true :=
  ⟨(returns_expressionWithin c.reach c).of_done⟩

private theorem returns_layer_items (c : Cursor) :
    Returns (layer items) c fun es _ => Expr.allRegular es = true :=
  ⟨(returns_items (returns_expressionWithin c.reach) c.reach c).of_done⟩

/-! ### Statements -/

/-- The statement is regular and, if it is dangling, nothing that would go on with it follows. -/
def Complete (a : Stmt) (s : Stream) : Prop :=
  a.regular = true ∧ (a.dangling = true → s.cursor.pastNewlines.check (.keyword .natra) = false)

theorem complete_of_not_dangling {a : Stmt} {s : Stream} (regular : a.regular = true)
    (h : a.dangling = false) : Complete a s :=
  ⟨regular, by simp [h]⟩

theorem returns_under {r : Reading α} {post : α → Prop} {s : Stream}
    (h : Returns r s.cursor fun a _ => post a) : Returns (under r) s fun a _ => post a := by
  constructor
  intro a d run
  rw [under_apply] at run
  cases first : r s.cursor with
  | done b c =>
    rw [first] at run
    cases run
    exact h.of_done first
  | failed e c =>
    rw [first] at run
    cases run
  | endless =>
    rw [first] at run
    cases run

private theorem returns_simple (c : Cursor) :
    Returns simple c fun a _ => a.regular = true ∧ a.dangling = false := by
  apply Returns.step
  intro token d
  split
  · apply Returns.step
    intro _ d
    apply Returns.step
    intro name d
    apply Returns.step
    intro equals d
    cases equals with
    | none =>
      simp only [pure_bind]
      exact .step fun _ _ => .pure ⟨rfl, rfl⟩
    | some _ =>
      simp only [map_eq_pure_bind, bind_assoc, pure_bind]
      apply (returns_expression d).bind
      intro e d inner
      exact .step fun _ _ => .pure ⟨inner, rfl⟩
  · apply Returns.step
    intro _ d
    apply Returns.step
    intro ended d
    split
    · simp only [pure_bind]
      exact .step fun _ _ => .pure ⟨rfl, rfl⟩
    · apply (returns_layer_items d).bind
      intro es d all
      exact .step fun _ _ => .pure ⟨all, rfl⟩
  · exact .step fun _ _ => .step fun _ _ => .pure ⟨rfl, rfl⟩
  · exact .step fun _ _ => .step fun _ _ => .pure ⟨rfl, rfl⟩
  · apply (returns_expression d).bind
    intro e d inner
    exact .step fun _ _ => .pure ⟨inner, rfl⟩

section

variable {statement : Parsing Stmt} (h : ∀ s, Returns statement s Complete)
include h

theorem returns_sequence (closing : Kind) (bound : Nat) (s : Stream) :
    Returns (sequence statement closing bound) s fun body _ => Stmt.allRegular body = true := by
  induction bound generalizing s with
  | zero => exact .absurd nofun
  | succ bound ih =>
    apply Returns.step
    intro _ d
    apply Returns.step
    intro stop d
    split
    · exact .pure rfl
    · apply (h d).attempt.bind
      intro result d complete
      cases result with
      | ok first =>
        apply (ih d).bind
        intro more d rest
        exact .pure (by simp [Stmt.allRegular, (complete first rfl).1, rest])
      | error fault => exact .step fun _ d => ih d

private theorem returns_block (bound : Nat) (s : Stream) :
    Returns (block statement bound) s Complete := by
  apply Returns.step
  intro _ d
  apply (returns_sequence h _ bound d).bind
  intro body d regular
  exact .step fun _ _ => .pure (complete_of_not_dangling regular rfl)

private theorem returns_otherwise {test : Expr} {consequent : Stmt} {s : Stream}
    (regular : test.regular = true) (complete : Complete consequent s) :
    Returns (otherwise statement test consequent) s Complete := by
  -- Line breaks up to the last token, with no end of input behind them, are skipped for ever.
  by_cases stuck : s.cursor.pastNewlines.check .newline = true
  · have endless : under skipNewlines s = .endless := by
      rw [under_apply, skipNewlines, if_pos stuck]
      rfl
    apply Returns.absurd
    intro a d run
    rw [otherwise_of_endless endless] at run
    cases run
  have skipped : under skipNewlines s = .done () s.pastNewlines := by
    rw [under_apply, skipNewlines, if_neg stuck]
    rfl
  cases natra : s.cursor.pastNewlines.check (.keyword .natra) with
  | true =>
    have accepted : accept? (.keyword .natra) s.pastNewlines.cursor =
        .done (some s.cursor.pastNewlines.advance.previous) s.cursor.pastNewlines.advance := by
      simp [accept?, Cursor.advanceIf, Stream.pastNewlines, natra]
    apply Returns.congr (otherwise_of_accepted skipped (under_of_done accepted))
    apply (h _).bind
    intro alternate d whole
    -- A dangling consequent would have taken this `natra` itself.
    have closed : consequent.dangling = false := by
      cases dangling : consequent.dangling with
      | false => rfl
      | true => exact natra.symm.trans (complete.2 dangling)
    exact .pure ⟨by simp [Stmt.regular, Stmt.regularElse, regular, complete.1, whole.1, closed],
      whole.2⟩
  | false =>
    have declined : accept? (.keyword .natra) s.pastNewlines.cursor =
        .done none s.cursor.pastNewlines := by
      simp [accept?, Cursor.advanceIf, Stream.pastNewlines, natra]
    have run : otherwise statement test consequent s = .done (.branch test consequent none) _ :=
      otherwise_of_declined skipped (under_of_done declined)
    constructor
    intro a d done
    rw [run] at done
    cases done
    exact ⟨by simp [Stmt.regular, Stmt.regularElse, regular, complete.1], fun _ => natra⟩

private theorem returns_branch (s : Stream) : Returns (branch statement) s Complete := by
  rw [branch_eq]
  apply (returns_under (returns_expression s.cursor)).bind
  intro test d regular
  apply Returns.step
  intro _ d
  apply (h d).bind
  intro consequent d complete
  exact returns_otherwise h regular complete

end

private theorem returns_statementWithin (bound : Nat) (s : Stream) :
    Returns (statementWithin bound) s Complete := by
  induction bound generalizing s with
  | zero => exact .absurd nofun
  | succ bound ih =>
    apply Returns.step
    intro _ d
    apply Returns.step
    intro token d
    split
    · exact .step fun _ d => returns_branch ih d
    · apply Returns.step
      intro _ d
      apply (returns_under (returns_expression d.cursor)).bind
      intro test d regular
      apply (ih d).bind
      intro body d complete
      exact .pure ⟨by simp [Stmt.regular, regular, complete.1], complete.2⟩
    · exact returns_block ih bound d
    · have run := returns_under (returns_simple d.cursor)
      exact ⟨fun done => complete_of_not_dangling (run.of_done done).1 (run.of_done done).2⟩

theorem regular_of_ofTokens {tokens : List Token} {program : Program}
    (parsed : Program.ofTokens tokens = some (.ok program)) : program.regular = true := by
  unfold Program.ofTokens at parsed
  cases run : statements .finish (.plain tokens) with
  | done body s =>
    rw [run] at parsed
    cases parsed
    let s := Stream.plain tokens
    exact (returns_sequence (returns_statementWithin s.cursor.reach) .finish _ s).of_done run
  | failed e s =>
    rw [run] at parsed
    cases parsed
  | endless =>
    rw [run] at parsed
    cases parsed

end Grammar

end DaiScript
