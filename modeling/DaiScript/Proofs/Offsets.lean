import DaiScript.Proofs.Ahead

/-! Where a cursor stands, and what it passes on its way. Expressions, and the forms without
statements inside, pass no brace, whether they are read or fail; and the search for the next
statement passes no token from which reading could resume. -/
namespace DaiScript

open Grammar Reading

namespace Cursor

/-- The offset of the first end of input ahead. -/
def stop (c : Cursor) : Nat := c.offset + c.left

variable {c d : Cursor} {used : List Token}

theorem offset_le_stop (c : Cursor) : c.offset ≤ c.stop :=
  Nat.le_add_right c.offset c.left

namespace Passes

theorem offset_eq (h : c.Passes used d) : d.offset = c.offset + used.length := by
  unfold offset
  rw [h.behind, h.beyond, List.length_append, List.length_reverse]
  omega

theorem stop_eq (h : c.Passes used d) : d.stop = c.stop := by
  unfold stop
  rw [h.offset_eq, h.left_eq, Nat.add_assoc]

theorem unique (h : c.Passes used d) {other : List Token} (k : c.Passes other d) : other = used :=
  List.append_cancel_right (k.ahead.symm.trans h.ahead)

theorem head (h : c.Passes used d) (moved : used ≠ []) : ∃ rest, used = c.peek :: rest := by
  cases used with
  | nil => contradiction
  | cons t rest =>
    refine ⟨rest, ?_⟩
    rw [peek, h.ahead]
    rfl

end Passes

namespace Grounded

theorem getElem?_offset (h : c.Grounded) : c.tokens[c.offset]? = some c.peek := by
  unfold tokens offset
  rw [h.within, h.ahead_eq, List.getElem?_append_right (by simp)]
  simp

theorem offset_eq_stop (h : c.Grounded) : c.offset = c.stop ↔ c.peek.kind = .finish := by
  have ahead := h.ahead_eq
  unfold stop left
  rw [ahead, List.takeWhile_cons]
  by_cases hk : c.peek.kind = .finish
  · simp [hk]
  · simp [hk]

end Grounded

end Cursor

/-! ### Readings -/

structure Cursor.PassesBraceless (c : Cursor) (used : List Token) (later : Cursor) : Prop
    extends c.Passes used later where
  bare : ∀ t ∈ used, t.kind.isBrace = false

/-- A reading beside itself, which has come from `start` without passing a brace. -/
def Tracking.braceless (start : Cursor) : Tracking where
  move := id
  cursors c d := d = c ∧ c.Grounded ∧ ∃ used, start.PassesBraceless used c
  error e e' := e' = e
  excused _ := False
  mute kind := kind.isIdle || kind.isBrace
  outer := by
    intro kind mute
    obtain idle | brace := Bool.or_eq_true_iff.mp mute
    · exact isInner_of_isIdle idle
    · unfold Kind.isBrace at brace
      split at brace
      · rfl
      · rfl
      · contradiction
  ended := rfl
  grounded := by
    rintro _ c ⟨rfl, grounded, -⟩
    exact ⟨grounded, grounded⟩
  idle := by
    rintro _ c ⟨rfl, -⟩ mute
    exact mute
  solid := by
    rintro _ c ⟨rfl, -⟩ _
    rfl
  advance := by
    rintro _ c ⟨rfl, grounded, used, walk⟩ solid
    obtain ⟨solid, bare⟩ := Bool.or_eq_false_iff.mp solid
    have step : c.Passes [c.peek] c.advance := by
      apply grounded.passes_advance
      intro finish
      rw [finish] at solid
      contradiction
    refine ⟨rfl, step.grounded grounded, used ++ [c.peek], walk.toPasses.trans step, ?_⟩
    rw [List.forall_mem_append]
    exact ⟨walk.bare, by simpa using bare⟩
  reject := by
    rintro _ c cause ⟨rfl, -⟩
    exact .inr rfl
  reach := by
    rintro _ c ⟨rfl, -⟩
    exact .refl _

namespace Grammar

theorem passesBraceless_of_matches {r : Reading α} {value : α → α → Prop} {c : Cursor}
    {spelled : List Token → α → Prop} (grounded : c.Grounded) (reads : Reads r c spelled)
    (h : Process.Matches (Tracking.braceless c).readings value r r) :
    Ends Cursor.PassesBraceless SyntaxError.Here r c spelled := by
  have start : (Tracking.braceless c).cursors c c :=
    ⟨rfl, grounded, [], .refl c, by simp⟩
  have outcome := h start
  unfold Reads at reads
  unfold Ends at reads ⊢
  cases run : r c with
  | endless => rw [run] at reads; exact reads
  | done a d =>
    rw [run] at reads outcome
    obtain ⟨used, walk, spells⟩ := reads
    cases outcome with
    | done same state =>
      obtain ⟨-, -, other, braceless⟩ := state
      cases walk.unique braceless.toPasses
      exact ⟨used, braceless, spells⟩
  | failed e d =>
    rw [run] at reads outcome
    obtain ⟨-, blamed⟩ := reads
    cases outcome with
    | failed same state =>
      obtain ⟨-, -, used, braceless⟩ := state
      exact ⟨⟨used, braceless⟩, blamed⟩
    | excusedFailed excused => exact excused.elim

variable {c : Cursor} (grounded : c.Grounded)
include grounded

theorem braceless_expression :
    Ends Cursor.PassesBraceless SyntaxError.Here expression c fun used e =>
      Spells used (.expr .assignment e) :=
  passesBraceless_of_matches grounded (reads_expression grounded) Tracking.expression_matches

theorem braceless_expect {kind : Kind} (solid : (Tracking.braceless c).mute kind = false)
    (inside : kind ≠ .finish) :
    Ends Cursor.PassesBraceless SyntaxError.Here (expect kind) c fun used t =>
      used = [t] ∧ t.kind = kind :=
  passesBraceless_of_matches grounded (.expect grounded inside) (Tracking.expect_matches solid)

theorem braceless_simple :
    Ends Cursor.PassesBraceless SyntaxError.Here simple c fun used a => Forms used (.stmt a) :=
  passesBraceless_of_matches grounded (reads_simple grounded)
    (Tracking.simple_matches (fun _ => rfl) rfl)

/-! ### Recovery -/

theorem exists_seekStatement {n : Nat} (enough : c.left < n) :
    ∃ used d, seekStatement n c = .done () d ∧ c.Passes used d ∧
      ∀ t ∈ used, resumes t.kind = false := by
  induction n generalizing c with
  | zero => omega
  | succ n ih =>
    rw [seekStatement_succ]
    split
    · exact ⟨[], c, rfl, .refl c, by simp⟩
    · next going =>
      simp only [Bool.or_eq_true, not_or, Bool.not_eq_true] at going
      have step := grounded.passes_advance (by simpa [Cursor.atEnd] using going.1.1)
      have shorter := step.left_eq
      rw [List.length_singleton] at shorter
      obtain ⟨used, d, run, walk, passed⟩ := ih (step.grounded grounded) (by omega)
      refine ⟨c.peek :: used, d, run, step.trans walk, ?_⟩
      rw [List.forall_mem_cons]
      exact ⟨going.2, passed⟩

/-- Recovery rests on the closing token or on the end, or else passes the token under the cursor and
tokens from which reading could not resume. -/
theorem exists_resumed (closing : Kind) :
    ∃ used d, resumed closing c = .done () d ∧ c.Passes used d ∧
      (used = [] ∧ (c.atEnd || c.check closing) = true ∨
        ∃ rest, used = c.peek :: rest ∧ (c.atEnd || c.check closing) = false ∧
          ∀ t ∈ rest, resumes t.kind = false) := by
  cases ended : c.atEnd with
  | true =>
    have run : resumed closing c = .done () c := resumed_of_end closing (beq_iff_eq.mp ended)
    exact ⟨[], c, run, .refl c, .inl ⟨rfl, rfl⟩⟩
  | false =>
    unfold resumed
    cases resting : c.check closing with
    | true => exact ⟨[], c, if_pos rfl, .refl c, .inl ⟨rfl, rfl⟩⟩
    | false =>
      have step := grounded.passes_advance (by simpa [Cursor.atEnd] using ended)
      have short := (step.grounded grounded).left_lt
      obtain ⟨used, d, run, walk, passed⟩ := exists_seekStatement (step.grounded grounded)
        (show c.advance.left < c.advance.reach by unfold Cursor.reach; omega)
      exact ⟨c.peek :: used, d, run, step.trans walk, .inr ⟨used, rfl, rfl, passed⟩⟩

end Grammar

end DaiScript
