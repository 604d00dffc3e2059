import DaiScript.Proofs.Phrase
import DaiScript.Proofs.Readings

/-! Every expression that is read is spelled by the tokens that were passed. The bounds of the
layers suffice: each is larger than the number of tokens left, and every recursion passes a token
first. -/
namespace DaiScript.Grammar

open Reading

def SpellsBelow (k : Nat) (expr : Reading Expr) : Prop :=
  ∀ c : Cursor, c.Grounded → c.left < k →
    Reads expr c fun used e => Spells used (.expr .assignment e)

section

variable {k : Nat} {expr : Reading Expr} (below : SpellsBelow k expr)
include below

theorem reads_moreItems {bound : Nat} {c : Cursor} (grounded : c.Grounded) (fits : c.left ≤ k)
    (enough : c.left < bound) :
    Reads (moreItems expr bound) c fun used es => Spells used (.more es) := by
  induction bound generalizing c with
  | zero => omega
  | succ bound ih =>
    refine Reads.accept_bind grounded (by simp) ?_ fun _ => .pure .moreNil
    intro comma d walk hcomma
    have hd := walk.left_eq
    refine (below d (walk.grounded grounded) (by simp at hd; omega)).bind ?_
    intro e first d' walk' he
    have hd' := walk'.left_eq
    have rest := ih (walk'.grounded (walk.grounded grounded)) (by omega) (by simp at hd; omega)
    refine rest.bind ?_
    intro es more _ _ hes
    exact .pure (by simpa using Spells.moreCons hcomma he hes)

theorem reads_items {bound : Nat} {c : Cursor} (grounded : c.Grounded) (fits : c.left < k)
    (enough : c.left < bound) :
    Reads (items expr bound) c fun used es => Spells used (.items es) := by
  refine (below c grounded fits).bind ?_
  intro e first d walk he
  have hd := walk.left_eq
  refine (reads_moreItems below (walk.grounded grounded) (by omega) (by omega)).bind ?_
  intro es more _ _ hes
  exact .pure (by simpa using Spells.items he hes)

theorem reads_closedItems {bound : Nat} {symbol : Symbol} {delimiter : Char} {c : Cursor}
    (grounded : c.Grounded) (fits : c.left < k) (enough : c.left < bound) :
    Reads (closedItems expr bound symbol delimiter) c fun used es =>
      Spells used (.closed symbol es) := by
  refine Reads.accept_bind grounded (by simp) (fun t _ _ ht => .pure (.closedNil ht)) fun _ => ?_
  refine (reads_items below grounded fits enough).bind ?_
  intro es first d walk hes
  refine (Reads.close (walk.grounded grounded)).bind ?_
  rintro - _ _ _ ⟨closing, rfl, hc⟩
  exact .pure (by simpa using Spells.closedItems hes hc)

theorem reads_primary {bound : Nat} {c : Cursor} (grounded : c.Grounded) (fits : c.left ≤ k)
    (enough : c.left ≤ bound) :
    Reads (primary expr bound) c fun used e => Spells used (.expr .primary e) := by
  refine Reads.peek_bind ?_
  split
  · next value hv =>
    have inside : c.peek.kind ≠ .finish := by intro h; simp [literal?, h] at hv
    exact Reads.advance_bind grounded inside fun _ _ => .pure (.literal hv)
  · split
    · next hk => exact Reads.advance_bind grounded (by simp [hk]) fun _ _ => .pure (.name hk)
    · next hk =>
      refine Reads.advance_bind grounded (by simp [hk]) fun d walk => ?_
      have hd := walk.left_eq
      refine (below d (walk.grounded grounded) (by simp at hd; omega)).bind ?_
      intro e inner d' walk' he
      refine (Reads.close (walk'.grounded (walk.grounded grounded))).bind ?_
      rintro - _ _ _ ⟨closing, rfl, hc⟩
      exact .pure (by simpa using Spells.parens hk he hc)
    · next hk =>
      refine Reads.advance_bind grounded (by simp [hk]) fun d walk => ?_
      have hd := walk.left_eq
      refine (reads_closedItems below (walk.grounded grounded) (by simp at hd; omega)
        (by simp at hd; omega)).bind ?_
      intro es rest _ _ hes
      exact .pure (by simpa using Spells.array hk hes)
    · exact Reads.reject fun _ => rfl

theorem reads_calls {outer bound : Nat} {callee : Expr} {c : Cursor} (grounded : c.Grounded)
    (fits : c.left ≤ k) (inner : c.left ≤ outer) (enough : c.left < bound) :
    Reads (calls expr outer bound callee) c fun used e => Spells used (.calls callee e) := by
  induction bound generalizing c callee with
  | zero => omega
  | succ bound ih =>
    refine Reads.accept_bind grounded (by simp) ?_ fun _ => .pure .callsNil
    intro opening d walk hopening
    have hd := walk.left_eq
    simp only [List.length_singleton] at hd
    refine (reads_closedItems below (walk.grounded grounded) (by omega) (by omega)).bind ?_
    intro arguments first d' walk' hes
    have hd' := walk'.left_eq
    refine (ih (walk'.grounded (walk.grounded grounded)) (by omega) (by omega) (by omega)).mono ?_
    intro more e he
    exact .callsCons hopening hes he

theorem reads_call {bound : Nat} {c : Cursor} (grounded : c.Grounded) (fits : c.left ≤ k)
    (enough : c.left ≤ bound) :
    Reads (call expr bound) c fun used e => Spells used (.expr .call e) := by
  refine (reads_primary below grounded fits enough).bind ?_
  intro callee first d walk hcallee
  have hd := walk.left_eq
  have moved := List.length_pos_iff.mpr hcallee.ne_nil
  refine (reads_calls below (walk.grounded grounded) (by omega) (by omega) (by omega)).mono ?_
  intro more e he
  exact .call hcallee he

theorem reads_updated {bound : Nat} {c : Cursor} (grounded : c.Grounded) (fits : c.left ≤ k)
    (enough : c.left ≤ bound) :
    Reads (updated expr bound) c fun used e => Spells used (.expr .updated e) := by
  refine (reads_call below grounded fits enough).bind ?_
  intro target first d walk htarget
  refine Reads.peek_bind ?_
  split
  · next op hop =>
    have hk := UpdateOp.ofKind?_eq_some.mp hop
    refine Reads.advance_bind (walk.grounded grounded) (by simp [hk]) fun _ _ => .pure ?_
    exact .update htarget hk
  · exact .pure (by simpa using Spells.plain htarget)

theorem reads_unary {bound : Nat} {c : Cursor} (grounded : c.Grounded) (fits : c.left ≤ k)
    (enough : c.left < bound) :
    Reads (unary expr bound) c fun used e => Spells used (.expr .unary e) := by
  induction bound generalizing c with
  | zero => omega
  | succ bound ih =>
    refine Reads.peek_bind ?_
    split
    · next op hop =>
      have hk := UnaryOp.ofKind?_eq_some.mp hop
      refine Reads.advance_bind grounded (by simp [hk]) fun d walk => ?_
      have hd := walk.left_eq
      simp only [List.length_singleton] at hd
      refine (ih (walk.grounded grounded) (by omega) (by omega)).bind ?_
      intro e rest _ _ he
      exact .pure (by simpa using Spells.signed hk he)
    · refine (reads_updated below grounded fits (by omega)).mono ?_
      intro used e he
      exact .unsigned he

omit below in
theorem reads_chain {level bound : Nat} {operand : Reading Expr} {left : Expr} {c : Cursor}
    (operands : ∀ d : Cursor, d.Grounded → d.left < c.left →
      Reads operand d fun used e => Spells used (.expr (.binary level) e))
    (grounded : c.Grounded) (enough : c.left < bound) :
    Reads (chain (level + 1) operand bound left) c fun used e =>
      Spells used (.chain (level + 1) left e) := by
  induction bound generalizing c left with
  | zero => omega
  | succ bound ih =>
    refine Reads.peek_bind ?_
    split
    · next op hop =>
      obtain ⟨hop, hlevel⟩ := Option.filter_eq_some_iff.mp hop
      have hk := BinaryOp.ofKind?_eq_some.mp hop
      refine Reads.advance_bind grounded (by simp [hk]) fun d walk => ?_
      have hd := walk.left_eq
      simp only [List.length_singleton] at hd
      refine (operands d (walk.grounded grounded) (by omega)).bind ?_
      intro right first d' walk' hright
      have hd' := walk'.left_eq
      refine (ih (fun f hf hlt => operands f hf (by omega))
        (walk'.grounded (walk.grounded grounded)) (by omega)).mono ?_
      intro more e he
      exact .chainCons hk (by simpa using hlevel) hright he
    · exact .pure .chainNil

theorem reads_binary {level bound : Nat} {c : Cursor} (grounded : c.Grounded) (fits : c.left ≤ k)
    (enough : c.left < bound) :
    Reads (binary expr bound level) c fun used e => Spells used (.expr (.binary level) e) := by
  induction level generalizing c with
  | zero =>
    refine (reads_unary below grounded fits enough).mono ?_
    intro used e he
    exact .operand he
  | succ level ih =>
    refine (ih grounded fits enough).bind ?_
    intro left first d walk hleft
    have hd := walk.left_eq
    refine (reads_chain (fun f hf hlt => ih hf (by omega) (by omega)) (walk.grounded grounded)
      (by omega)).mono ?_
    intro more e he
    exact .binary hleft he

theorem reads_assignment {bound : Nat} {c : Cursor} (grounded : c.Grounded) (fits : c.left ≤ k)
    (enough : c.left < bound) :
    Reads (assignment expr bound) c fun used e => Spells used (.expr .assignment e) := by
  refine (reads_binary below grounded fits enough).bind ?_
  intro target first d walk htarget
  have hd := walk.left_eq
  have moved := List.length_pos_iff.mpr htarget.ne_nil
  refine Reads.peek_bind ?_
  split
  · next op hop =>
    have hk := AssignOp.ofKind?_eq_some.mp hop
    refine Reads.advance_bind (walk.grounded grounded) (by simp [hk]) fun d' walk' => ?_
    have hd' := walk'.left_eq
    refine (below d' (walk'.grounded (walk.grounded grounded)) (by omega)).bind ?_
    intro value rest _ _ hvalue
    exact .pure (by simpa using Spells.assign htarget hk hvalue)
  · exact .pure (by simpa using Spells.value htarget)

end

theorem spellsBelow_expressionWithin (k : Nat) : SpellsBelow k (expressionWithin (k + 1)) := by
  induction k with
  | zero => intro c _ h; omega
  | succ k ih =>
    intro c grounded h
    exact reads_assignment ih grounded (by omega) h

theorem reads_expression {c : Cursor} (grounded : c.Grounded) :
    Reads expression c fun used e => Spells used (.expr .assignment e) := by
  have short := grounded.left_lt
  have run : expression c = expressionWithin (c.ahead.length + 3 + 1) c := rfl
  exact .congr run (spellsBelow_expressionWithin _ c grounded (by omega))

theorem reads_layer {reading : Reading Expr → Nat → Reading α} {c : Cursor}
    {spelled : List Token → α → Prop} (grounded : c.Grounded)
    (h : ∀ {k bound : Nat} {expr : Reading Expr}, SpellsBelow k expr → c.left < k → c.left < bound →
      Reads (reading expr bound) c spelled) : Reads (layer reading) c spelled := by
  have short := grounded.left_lt
  have run : layer reading c =
      reading (expressionWithin (c.ahead.length + 3 + 1)) (c.ahead.length + 4) c := rfl
  exact .congr run (h (spellsBelow_expressionWithin _) (by omega) (by omega))

theorem reads_layer_items {c : Cursor} (grounded : c.Grounded) :
    Reads (layer items) c fun used es => Spells used (.items es) :=
  reads_layer grounded fun below fits enough => reads_items below grounded fits enough

end DaiScript.Grammar
