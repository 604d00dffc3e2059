import DaiScript.Proofs.Offsets

/-! Reading ends wherever there is an end of input, and what it ends with does not depend on tokens
behind that end. No function of the grammar moves the cursor back or past the first end of input;
those that read an expression or a statement pass a token if they succeed; and so does each round of
a sequence but the last. -/
namespace DaiScript

open Grammar Reading

/-! ### The functions of the grammar -/

namespace Grammar

/-- The readings of the grammar, each with the least number of tokens that it passes if it
succeeds. -/
inductive Reader : {α : Type} → Reading α → Nat → Prop
  | advance : Reader advance 0
  | accept (kind : Kind) : Reader (accept? kind) 0
  | expect (kind : Kind) : Reader (expect kind) 1
  | close (symbol : Symbol) (delimiter : Char) : Reader (close symbol delimiter) 1
  | skipNewlines : Reader skipNewlines 0
  | moreItems : Reader (layer moreItems) 0
  | items : Reader (layer items) 1
  | closedItems (symbol : Symbol) (delimiter : Char) :
      Reader (layer fun expr bound => closedItems expr bound symbol delimiter) 1
  | primary : Reader (layer primary) 1
  | calls (callee : Expr) : Reader (layer fun expr bound => calls expr bound bound callee) 0
  | call : Reader (layer call) 1
  | updated : Reader (layer updated) 1
  | unary : Reader (layer unary) 1
  | chain (level : Nat) (left : Expr) :
      Reader (layer fun expr bound => chain (level + 1) (binary expr bound level) bound left) 0
  | binary (level : Nat) : Reader (layer fun expr bound => binary expr bound level) 1
  | assignment : Reader (layer assignment) 1
  | expression : Reader expression 1
  | synchronize : Reader synchronize 0
  | semicolon : Reader semicolon 1
  | simple : Reader simple 1

inductive Parser : {α : Type} → Parsing α → Nat → Prop
  | under {α : Type} {r : Reading α} {least : Nat} : Reader r least → Parser (under r) least
  | recover (fault : SyntaxError) (closing : Kind) : Parser (recover fault closing) 0
  | statements (closing : Kind) : Parser (statements closing) 0
  | braced : Parser braced 1
  | branch : Parser (spanning fun bound => branch (statementWithin bound)) 1
  | statement : Parser statement 1

/-! ### Readings -/

section

variable {c : Cursor} (grounded : c.Grounded)
include grounded

private theorem reads_advance : Reads advance c fun _ _ => True := by
  by_cases inside : c.peek.kind = .finish
  · have still : advance c = .done () c := by
      simp [advance, Process.modify, Cursor.advance, Cursor.atEnd, inside]
    exact .congr still (.pure trivial)
  · exact ⟨_, grounded.passes_advance inside, trivial⟩

omit grounded in
theorem accept?_finish : accept? .finish c = .done none c := by
  simp [accept?, Cursor.advanceIf, Cursor.check, Cursor.atEnd]

private theorem reads_accept (kind : Kind) : Reads (accept? kind) c fun _ _ => True := by
  by_cases hk : kind = .finish
  · rw [hk]
    exact .congr accept?_finish (.pure trivial)
  · have whole : Reads (accept? kind >>= Pure.pure) c fun _ _ => True :=
      .accept_bind grounded hk (fun _ _ _ _ => .pure trivial) fun _ => .pure trivial
    rwa [bind_pure] at whole

private theorem reads_expect (kind : Kind) :
    Reads (expect kind) c fun used _ => 1 ≤ used.length := by
  by_cases hk : kind = .finish
  · have left : expect kind c = reject (.unexpected kind.describe) c := by
      change (accept? kind >>= _) c = _
      rw [hk, Process.bind_apply, accept?_finish]
    exact .congr left (Reads.reject fun _ => rfl)
  · apply (Reads.expect grounded hk).mono
    rintro _ t ⟨rfl, -⟩
    exact Nat.le_refl 1

theorem Reader.reads {r : Reading α} {least : Nat} (h : Reader r least) :
    Reads r c fun used _ => least ≤ used.length := by
  have some : ∀ {layer : Layer} (used : List Token) (e : Expr), Spells used (.expr layer e) →
      1 ≤ used.length := fun _ _ h => List.length_pos_iff.mpr h.ne_nil
  cases h with
  | advance => exact (reads_advance grounded).mono fun _ _ _ => Nat.zero_le _
  | accept kind => exact (reads_accept grounded kind).mono fun _ _ _ => Nat.zero_le _
  | expect kind => exact reads_expect grounded kind
  | close symbol delimiter =>
    apply (Reads.close grounded).mono
    rintro _ _ ⟨t, rfl, -⟩
    exact Nat.le_refl 1
  | skipNewlines =>
    obtain ⟨breaks, -, walk, -⟩ := grounded.passes_pastNewlines
    have run : Reading.skipNewlines c = (Pure.pure () : Reading Unit) c.pastNewlines :=
      skipNewlines_eq grounded
    exact .further run walk (.pure (Nat.zero_le _))
  | moreItems =>
    exact reads_layer grounded fun below fits enough =>
      (reads_moreItems below grounded (by omega) enough).mono fun _ _ _ => Nat.zero_le _
  | items =>
    apply (reads_layer_items grounded).mono
    intro used es spelled
    obtain ⟨t, more, rfl, -⟩ := spelled.head_items
    simp
  | closedItems symbol delimiter =>
    apply reads_layer grounded
    intro k bound expr below fits enough
    apply (reads_closedItems below grounded fits enough).mono
    intro used es spelled
    cases spelled <;> simp
  | primary =>
    exact reads_layer grounded fun below _ _ =>
      (reads_primary below grounded (by omega) (by omega)).mono some
  | calls callee =>
    exact reads_layer grounded fun below _ enough =>
      (reads_calls below grounded (by omega) (by omega) enough).mono fun _ _ _ => Nat.zero_le _
  | call =>
    exact reads_layer grounded fun below _ _ =>
      (reads_call below grounded (by omega) (by omega)).mono some
  | updated =>
    exact reads_layer grounded fun below _ _ =>
      (reads_updated below grounded (by omega) (by omega)).mono some
  | unary =>
    exact reads_layer grounded fun below _ enough =>
      (reads_unary below grounded (by omega) enough).mono some
  | chain level left =>
    exact reads_layer grounded fun below _ enough =>
      (reads_chain (fun d hd fewer => reads_binary below hd (by omega) (by omega)) grounded
        enough).mono fun _ _ _ => Nat.zero_le _
  | binary level =>
    exact reads_layer grounded fun below _ enough =>
      (reads_binary below grounded (by omega) enough).mono some
  | assignment =>
    exact reads_layer grounded fun below _ enough =>
      (reads_assignment below grounded (by omega) enough).mono some
  | expression => exact (reads_expression grounded).mono some
  | synchronize => exact (reads_synchronize grounded).mono fun _ _ _ => Nat.zero_le _
  | semicolon =>
    apply (reads_semicolon grounded).mono
    rintro _ _ ⟨t, rfl, -⟩
    exact Nat.le_refl 1
  | simple => exact (reads_simple grounded).mono fun _ _ h => List.length_pos_iff.mpr h.ne_nil

end

/-! ### Parsings -/

abbrev MovesAtLeast (p : Parsing α) (s : Stream) (least : Nat) : Prop :=
  Ends (fun s used d => s.cursor.Passes used d.cursor) (fun _ _ _ => True) p s
    fun used _ => least ≤ used.length

theorem MovesAtLeast.of_parses {p : Parsing α} {s : Stream} {formed : List Token → α → Prop}
    {least : Nat} (h : Parses p s formed)
    (moves : ∀ used a, formed used a → least ≤ used.length) : MovesAtLeast p s least := by
  unfold MovesAtLeast Ends
  cases run : p s with
  | endless => exact h.not_endless run
  | done a d =>
    obtain ⟨used, walk, formed⟩ := h.of_done run
    exact ⟨used, walk.cursor, moves used a formed⟩
  | failed e d =>
    obtain ⟨⟨used, walk⟩, -⟩ := h.of_failed run
    exact ⟨⟨used, walk.cursor⟩, trivial⟩

section

variable {s : Stream} (grounded : s.cursor.Grounded)
include grounded

private theorem movesAtLeast_recover (fault : SyntaxError) (closing : Kind) :
    MovesAtLeast (recover fault closing) s 0 := by
  obtain ⟨used, d, run, walk, -⟩ := exists_resumed grounded closing
  unfold MovesAtLeast Ends
  rw [recover_eq, run]
  cases s.noted with
  | none => exact ⟨⟨used, walk⟩, trivial⟩
  | some faults => exact ⟨used, walk, Nat.zero_le _⟩

theorem movesAtLeast_spanning {parsing : Nat → Parsing Stmt} {formed : List Token → Stmt → Prop}
    (h : ∀ {k : Nat}, s.cursor.left < k →
      Parses (parsing k) s fun used a => used ≠ [] ∧ formed used a) :
    MovesAtLeast (spanning parsing) s 1 := by
  have short := grounded.left_lt
  have fits : s.cursor.left < s.cursor.reach := by
    unfold Cursor.reach
    omega
  have run : spanning parsing s = parsing s.cursor.reach s := rfl
  exact .congr run
    (MovesAtLeast.of_parses (h fits) fun _ _ formed => List.length_pos_iff.mpr formed.1)

private theorem Parser.movesAtLeast {p : Parsing α} {least : Nat} (h : Parser p least) :
    MovesAtLeast p s least := by
  cases h with
  | under reader =>
    exact .of_parses (.under grounded (reader.reads grounded)) fun _ _ enough => enough
  | recover fault closing => exact movesAtLeast_recover grounded fault closing
  | statements closing => exact .of_parses (parses_statements grounded) fun _ _ _ => Nat.zero_le _
  | braced =>
    exact movesAtLeast_spanning grounded fun fits =>
      parses_block (formsBelow_statementWithin _) grounded (by omega) (by omega)
  | branch =>
    let yadi : Token := ⟨.keyword .yadi, .start⟩
    have keyword : yadi.kind = .keyword .yadi := rfl
    exact movesAtLeast_spanning grounded fun fits =>
      parses_branch (formsBelow_statementWithin _) keyword grounded (by omega)
  | statement =>
    exact movesAtLeast_spanning grounded fun fits => formsBelow_statementWithin _ s grounded fits

end

/-! ### Nothing to read -/

private theorem binary_nil (level : Nat) :
    ∃ e, binary (expressionWithin 4) 4 level (.ofTokens []) = .failed e (.ofTokens []) := by
  induction level with
  | zero => exact ⟨_, rfl⟩
  | succ level ih =>
    obtain ⟨e, run⟩ := ih
    refine ⟨e, ?_⟩
    rw [binary, Process.bind_apply, run]

theorem Reader.nil {r : Reading α} {least : Nat} (h : Reader r least) :
    (∃ a, r (.ofTokens []) = .done a (.ofTokens [])) ∧ least = 0 ∨
      ∃ e, r (.ofTokens []) = .failed e (.ofTokens []) := by
  cases h with
  | advance | accept | skipNewlines | moreItems | calls | chain | synchronize =>
    exact .inl ⟨⟨_, rfl⟩, rfl⟩
  | binary level => exact .inr (binary_nil level)
  | _ => exact .inr ⟨_, rfl⟩

theorem Parser.nil {p : Parsing α} {least : Nat} (h : Parser p least)
    (noted : Option (List SyntaxError)) :
    (∃ a noted', p ⟨.ofTokens [], noted⟩ = .done a ⟨.ofTokens [], noted'⟩) ∧ least = 0 ∨
      ∃ e noted', p ⟨.ofTokens [], noted⟩ = .failed e ⟨.ofTokens [], noted'⟩ := by
  cases h with
  | under reader =>
    obtain ⟨⟨a, run⟩, none⟩ | ⟨e, run⟩ := reader.nil
    · exact .inl ⟨⟨a, noted, by rw [under_apply, run]; rfl⟩, none⟩
    · exact .inr ⟨e, noted, by rw [under_apply, run]; rfl⟩
  | recover fault closing =>
    cases noted with
    | none => exact .inr ⟨_, _, rfl⟩
    | some faults => exact .inl ⟨⟨_, _, rfl⟩, rfl⟩
  | statements closing => exact .inl ⟨⟨_, _, rfl⟩, rfl⟩
  | _ => exact .inr ⟨_, _, rfl⟩

/-! ### Places -/

/-- From the token with the offset `i`, the parsing ends at a token that is no earlier and not
behind the first end of input. If it succeeds, it has passed `least` tokens at least. -/
def Advances (p : Parsing α) (tokens : List Token) (i : Nat) (noted : Option (List SyntaxError))
    (least : Nat) : Prop :=
  match p ⟨(Cursor.ofTokens tokens).moveTo i, noted⟩ with
  | .done _ s => ∃ j, i + least ≤ j ∧ j ≤ (Cursor.ofTokens tokens).left ∧
      s.cursor = (Cursor.ofTokens tokens).moveTo j
  | .failed _ s => ∃ j, i ≤ j ∧ j ≤ (Cursor.ofTokens tokens).left ∧
      s.cursor = (Cursor.ofTokens tokens).moveTo j
  | .endless => False

private theorem Parser.advances_nil {p : Parsing α} {least : Nat} (h : Parser p least)
    (noted : Option (List SyntaxError)) : Advances p [] 0 noted least := by
  have start : (Cursor.ofTokens []).moveTo 0 = .ofTokens [] := rfl
  unfold Advances
  rw [start]
  obtain ⟨⟨a, noted', run⟩, rfl⟩ | ⟨e, noted', run⟩ := h.nil noted
  · rw [run]
    exact ⟨0, Nat.le_refl 0, Nat.le_refl 0, rfl⟩
  · rw [run]
    exact ⟨0, Nat.le_refl 0, Nat.le_refl 0, rfl⟩

end Grammar

private theorem Cursor.Grounded.eq_moveTo {c : Cursor} (h : c.Grounded) :
    c = (Cursor.ofTokens c.tokens).moveTo c.offset := by
  obtain ⟨behind, ahead, beyond⟩ := c
  obtain rfl : beyond = 0 := h.within
  simp [Cursor.moveTo, Cursor.offset, Cursor.tokens, Cursor.ofTokens]

theorem Cursor.passes_moveTo {tokens : List Token} {i : Nat}
    (h : i ≤ (Cursor.ofTokens tokens).left) :
    (Cursor.ofTokens tokens).Passes (tokens.take i) ((Cursor.ofTokens tokens).moveTo i) := by
  have front : tokens.takeWhile (·.kind != .finish) <+: tokens := List.takeWhile_prefix _
  have length : (tokens.takeWhile (·.kind != .finish)).length ≤ tokens.length := front.length_le
  change i ≤ (tokens.takeWhile (·.kind != .finish)).length at h
  refine ⟨(List.take_append_drop i tokens).symm, (List.append_nil _).symm, ?_, ?_⟩
  · change i - tokens.length = 0
    omega
  · intro t ht
    have within : tokens.take i <+: tokens.takeWhile (·.kind != .finish) :=
      List.prefix_of_prefix_length_le (List.take_prefix i tokens) front (by simp; omega)
    simpa using List.mem_takeWhile_imp (within.subset ht)

namespace Grammar

section

variable {tokens : List Token} (ended : ∃ t ∈ tokens, t.kind = .finish)
variable {i : Nat} (before : i ≤ (Cursor.ofTokens tokens).left)
include ended before

theorem grounded_moveTo : ((Cursor.ofTokens tokens).moveTo i).Grounded :=
  (Cursor.passes_moveTo before).grounded ⟨rfl, ended⟩

theorem eq_moveTo_of_passes {used : List Token} {d : Cursor}
    (walk : ((Cursor.ofTokens tokens).moveTo i).Passes used d) :
    i + used.length ≤ (Cursor.ofTokens tokens).left ∧
      d = (Cursor.ofTokens tokens).moveTo (i + used.length) := by
  have whole := (Cursor.passes_moveTo before).trans walk
  have grounded : d.Grounded := whole.grounded ⟨rfl, ended⟩
  have left := whole.left_eq
  have offset : d.offset = 0 + (tokens.take i ++ used).length := whole.offset_eq
  have same : d.tokens = tokens := whole.tokens_eq
  have short : (Cursor.ofTokens tokens).left < tokens.length := Cursor.Grounded.left_lt ⟨rfl, ended⟩
  rw [List.length_append, List.length_take] at left offset
  have place := grounded.eq_moveTo
  rw [same, show d.offset = i + used.length by omega] at place
  exact ⟨by omega, place⟩

private theorem MovesAtLeast.advances {p : Parsing α} {noted : Option (List SyntaxError)}
    {least : Nat} (h : MovesAtLeast p ⟨(Cursor.ofTokens tokens).moveTo i, noted⟩ least) :
    Advances p tokens i noted least := by
  unfold Advances
  cases run : p ⟨(Cursor.ofTokens tokens).moveTo i, noted⟩ with
  | endless => exact h.not_endless run
  | done a d =>
    obtain ⟨used, walk, enough⟩ := h.of_done run
    obtain ⟨bound, place⟩ := eq_moveTo_of_passes ended before walk
    exact ⟨i + used.length, by omega, bound, place⟩
  | failed e d =>
    obtain ⟨⟨used, walk⟩, -⟩ := h.of_failed run
    obtain ⟨bound, place⟩ := eq_moveTo_of_passes ended before walk
    exact ⟨i + used.length, by omega, bound, place⟩

/-- A round of a sequence is the last, or the next one starts at a later token. -/
theorem sequence_round {k : Nat} (fits : (Cursor.ofTokens tokens).left < i + k) (closing : Kind)
    (noted : Option (List SyntaxError)) :
    let s : Stream := ⟨(Cursor.ofTokens tokens).moveTo i, noted⟩
    (∃ o, o ≠ .endless ∧ ∀ n, sequence (statementWithin k) closing (n + 1) s = o) ∨
      ∃ j first noted', i < j ∧ j ≤ (Cursor.ofTokens tokens).left ∧ ∀ n,
        sequence (statementWithin k) closing (n + 1) s =
          (sequence (statementWithin k) closing n >>= fun more => Pure.pure (first ++ more))
            ⟨(Cursor.ofTokens tokens).moveTo j, noted'⟩ := by
  intro s
  have grounded : s.cursor.Grounded := grounded_moveTo ended before
  obtain ⟨breaks, newlines, skipped, -⟩ := grounded.passes_pastNewlines
  have hd := skipped.grounded grounded
  have onward : ∀ {used : List Token} {d : Stream}, s.pastNewlines.cursor.Passes used d.cursor →
      used ≠ [] → ∃ j, i < j ∧ j ≤ (Cursor.ofTokens tokens).left ∧
        d = ⟨(Cursor.ofTokens tokens).moveTo j, d.noted⟩ := by
    intro used d walk moved
    obtain ⟨bound, place⟩ := eq_moveTo_of_passes ended before (skipped.trans walk)
    have length := List.length_pos_iff.mpr moved
    rw [List.length_append] at bound place
    refine ⟨_, ?_, bound, ?_⟩
    · omega
    · rw [← place]
  have left : (Cursor.ofTokens tokens).left = (tokens.take i).length + s.cursor.left :=
    (Cursor.passes_moveTo before).left_eq
  have fewer := skipped.left_eq
  have short : s.pastNewlines.cursor.left < k := by
    have : (Cursor.ofTokens tokens).left < tokens.length := Cursor.Grounded.left_lt ⟨rfl, ended⟩
    rw [List.length_take] at left
    change s.cursor.pastNewlines.left < k
    omega
  cases stopped : s.pastNewlines.cursor.atEnd || s.pastNewlines.cursor.check closing with
  | true =>
    exact .inl ⟨.done [] s.pastNewlines, by simp, fun n => sequence_of_stopped grounded stopped⟩
  | false =>
    have going : ∀ n, sequence (statementWithin k) closing (n + 1) s = _ :=
      fun n => (sequence_of_going grounded stopped).trans (round_eq _ _ _ _)
    have spec := formsBelow_statementWithin k s.pastNewlines hd short
    cases run : statementWithin k s.pastNewlines with
    | endless => exact absurd run spec.not_endless
    | done a d =>
      obtain ⟨used, walk, moved, -⟩ := spec.of_done run
      obtain ⟨j, later, bound, place⟩ := onward walk.cursor moved
      refine .inr ⟨j, [a], d.noted, later, bound, fun n => ?_⟩
      rw [going n, run, ← place]
      rfl
    | failed e d =>
      obtain ⟨⟨used, walk⟩, blamed⟩ := spec.of_failed run
      obtain ⟨inside, other⟩ := Bool.or_eq_false_iff.mp stopped
      have recovery :=
        parses_recover_behind hd walk (by simpa [Cursor.atEnd] using inside) other blamed
      cases run' : recover e closing d with
      | endless => exact absurd run' recovery.not_endless
      | done u f =>
        obtain ⟨more, walk', -, moved⟩ := recovery.of_done run'
        obtain ⟨j, later, bound, place⟩ := onward (walk.trans walk').cursor moved
        refine .inr ⟨j, [], f.noted, later, bound, fun n => ?_⟩
        rw [going n, run, ← place]
        dsimp only
        rw [Process.bind_apply, run']
        simp
      | failed e' f =>
        refine .inl ⟨.failed e' f, by simp, fun n => ?_⟩
        rw [going n, run]
        dsimp only
        rw [Process.bind_apply, run']

end

end Grammar

/-! ### Programs -/

/-- Tokens that are none or have an end of input among them are read to an end, and the tokens
behind the first end of input have no part in the result. Every function of the grammar ends, at a
token that is not behind that end; one that reads an expression or a statement passes a token if it
succeeds; and a round of a sequence is the last, or the next one starts at a later token. -/
theorem Program.reading_ends {tokens : List Token}
    (ended : tokens = [] ∨ ∃ t ∈ tokens, t.kind = .finish) :
    ofTokens tokens ≠ none ∧ faults tokens ≠ none ∧
      (∀ i ≤ (Cursor.ofTokens tokens).left, ∀ noted,
        (∀ {α : Type} {p : Parsing α} {least : Nat}, Parser p least →
          Advances p tokens i noted least) ∧
        ∀ closing k, (Cursor.ofTokens tokens).left < i + k →
          let s : Stream := ⟨(Cursor.ofTokens tokens).moveTo i, noted⟩
          (∃ o, o ≠ .endless ∧ ∀ n, sequence (statementWithin k) closing (n + 1) s = o) ∨
            ∃ j first noted', i < j ∧ j ≤ (Cursor.ofTokens tokens).left ∧ ∀ n,
              sequence (statementWithin k) closing (n + 1) s =
                (sequence (statementWithin k) closing n >>= fun more => Pure.pure (first ++ more))
                  ⟨(Cursor.ofTokens tokens).moveTo j, noted'⟩) ∧
      ofTokens (tokens.take ((Cursor.ofTokens tokens).left + 1)) = ofTokens tokens ∧
      faults (tokens.take ((Cursor.ofTokens tokens).left + 1)) = faults tokens := by
  refine ⟨ofTokens_ne_none ended, faults_ne_none ended, ?_, ?_⟩
  · intro i before noted
    obtain rfl | ended := ended
    · obtain rfl : i = 0 := Nat.le_zero.mp before
      refine ⟨?_, ?_⟩
      · intro α p least parser
        exact parser.advances_nil noted
      · intro closing k _
        exact .inl ⟨.done [] ⟨.ofTokens [], noted⟩, by simp, fun n => rfl⟩
    · have grounded := grounded_moveTo ended before
      refine ⟨?_, ?_⟩
      · intro α p least parser
        exact (parser.movesAtLeast grounded).advances ended before
      · intro closing k fits
        exact sequence_round ended before fits closing noted
  · obtain rfl | ended := ended
    · exact ⟨rfl, rfl⟩
    · have grounded : (Cursor.ofTokens tokens).Grounded := ⟨rfl, ended⟩
      obtain ⟨body, last, more, inside, finish, place⟩ := grounded.exists_body
      obtain rfl : tokens = body ++ last :: more := congrArg Cursor.ahead place
      have left : (Cursor.ofTokens (body ++ last :: more)).left = body.length := by
        change ((body ++ last :: more).takeWhile (·.kind != .finish)).length = _
        rw [List.takeWhile_append_of_pos (by simpa using inside),
          List.takeWhile_cons_of_neg (by simp [finish]), List.append_nil]
      have front : (body ++ last :: more).take (body.length + 1) = body ++ [last] := by
        rw [List.take_length_add_append]
        rfl
      rw [left, front]
      exact ⟨(ofTokens_append inside finish more).symm, (faults_append inside finish more).symm⟩

theorem Program.reading_ends_twice :
    let tokens : List Token := [⟨.symbol .openBrace, ⟨1, 1, 0⟩⟩, ⟨.symbol .plus, ⟨1, 2, 1⟩⟩,
      .finish ⟨1, 3, 2⟩, ⟨.symbol .closeBrace, ⟨1, 3, 2⟩⟩, .finish ⟨1, 4, 3⟩]
    (∃ t ∈ tokens, t.kind = .finish) ∧ Advances Grammar.statement tokens 1 (some []) 1 ∧
      faults tokens = some [⟨.noExpression "'+'", ⟨1, 2, 1⟩⟩,
        ⟨.unclosed '\x7d' "end of input", ⟨1, 3, 2⟩⟩] := by
  intro tokens
  have ended : ∃ t ∈ tokens, t.kind = .finish := by decide
  obtain ⟨-, -, moves, -, same⟩ := reading_ends (.inr ended)
  have found : faults (tokens.take ((Cursor.ofTokens tokens).left + 1)) =
      some [⟨.noExpression "'+'", ⟨1, 2, 1⟩⟩, ⟨.unclosed '\x7d' "end of input", ⟨1, 3, 2⟩⟩] := by
    dsimp only [tokens]
    cbv
  exact ⟨ended, (moves 1 (by decide) (some [])).1 .statement, same.symm.trans found⟩

end DaiScript
