import DaiScript.Proofs.Fence

/-! A program in braces. The tokens of a program that is read without faults end with a semicolon or
a brace, so the statements are read the same in front of a closing brace as in front of the end, and
no fault is noted in the block they make. -/
namespace DaiScript.Grammar

open Reading

/-! ### The last token of a statement -/

inductive EndsFenced : List Token → Prop
  | last {t : Token} : t.kind.isFence = true → EndsFenced [t]
  | cons {t : Token} {rest : List Token} : EndsFenced rest → EndsFenced (t :: rest)

namespace EndsFenced

theorem prepend {rest : List Token} (h : EndsFenced rest) (front : List Token) :
    EndsFenced (front ++ rest) := by
  induction front with
  | nil => exact h
  | cons t front ih => exact .cons ih

theorem getLast? {tokens : List Token} (h : EndsFenced tokens) :
    ∃ t, tokens.getLast? = some t ∧ t.kind.isFence = true := by
  induction h with
  | last fence => exact ⟨_, rfl, fence⟩
  | cons rest ih =>
    obtain ⟨t, final, fence⟩ := ih
    exact ⟨t, by rw [List.getLast?_cons, final]; rfl, fence⟩

end EndsFenced

private theorem Forms.endsFenced {used : List Token} {clause : Clause} (h : Forms used clause) :
    used = [] ∨ EndsFenced used := by
  have last : ∀ {ending : Token} {symbol : Symbol}, ending.kind = .symbol symbol →
      (Kind.symbol symbol).isFence = true → EndsFenced [ending] := by
    intro ending symbol hk fence
    exact .last (by rw [hk]; exact fence)
  induction h with
  | declare _ _ hk => exact .inr (.cons (.cons (last hk rfl)))
  | printNone _ hk | leave _ hk | next _ hk => exact .inr (.cons (last hk rfl))
  | define _ _ _ _ hk | print _ _ hk | expr _ hk | block _ _ _ hk =>
    exact .inr ((last hk rfl).prepend _)
  | newline _ rest ih => exact .inr (.cons (ih.resolve_left rest.ne_nil))
  | branch _ _ _ second ih =>
    have onward := ih.resolve_left second.ne_nil
    exact .inr (onward.cons.prepend _)
  | branchElse _ _ _ _ _ _ third _ ih =>
    have onward := ih.resolve_left third.ne_nil
    exact .inr (onward.cons.prepend _)
  | loop _ _ second ih => exact .inr ((ih.resolve_left second.ne_nil).prepend _)
  | nil => exact .inl rfl
  | cons first _ ih ih' =>
    obtain rfl | rest := ih'
    · rw [List.append_nil]
      exact ih
    · exact .inr (rest.prepend _)

/-! ### Sequences without faults -/

private theorem check_closeBrace_of_done {k : Nat} {c : Cursor} {a : Stmt} {d : Stream}
    (grounded : c.Grounded) (fits : c.left < k) (read : statementWithin k ⟨c, none⟩ = .done a d) :
    c.check (.symbol .closeBrace) = false := by
  obtain ⟨used, walk, -, forms⟩ :=
    (formsBelow_statementWithin k ⟨c, none⟩ grounded fits).of_done read
  obtain ⟨t, more, rfl, start⟩ := (forms rfl).starts
  have first : c.peek = t := by
    have ahead : c.ahead = t :: more ++ d.cursor.ahead := walk.cursor.ahead
    rw [Cursor.peek, ahead]
    rfl
  have other : c.peek.kind ≠ .symbol .closeBrace := by
    rw [first]
    rintro hk
    rw [hk] at start
    obtain start | start := start <;> cases start
  simp [Cursor.check, other]

private theorem sequence_closing {k n : Nat} {c : Cursor} {body : List Stmt} {d : Stream}
    (grounded : c.Grounded) (fits : c.left < k)
    (run : sequence (statementWithin k) .finish n ⟨c, none⟩ = .done body d) :
    sequence (statementWithin k) (.symbol .closeBrace) n ⟨c, none⟩ = .done body d := by
  induction n generalizing c body with
  | zero => cases run
  | succ n ih =>
    obtain ⟨breaks, -, walk, -⟩ := grounded.passes_pastNewlines
    have hc := walk.grounded grounded
    have shorter := walk.left_eq
    by_cases stopped : c.pastNewlines.peek.kind = .finish
    · rw [sequence_of_end grounded stopped] at run
      rw [← run]
      apply sequence_of_stopped grounded
      change (c.pastNewlines.atEnd || _) = true
      rw [Cursor.atEnd, stopped]
      rfl
    · rw [sequence_of_inside grounded stopped] at run
      obtain ⟨first, rest, f, read, onward, rfl⟩ := exists_of_round (.statementWithin k) run
      obtain ⟨cursor, rfl, -⟩ := (Agrees.statementWithin k).done_state read
      obtain ⟨used, moved, -, -⟩ :=
        (formsBelow_statementWithin k ⟨c.pastNewlines, none⟩ hc (by dsimp only; omega)).of_done read
      have fewer : c.pastNewlines.left = used.length + cursor.left := moved.cursor.left_eq
      have going : (c.pastNewlines.atEnd || c.pastNewlines.check (.symbol .closeBrace)) =
          false := by
        rw [check_closeBrace_of_done hc (by omega) read, Bool.or_false]
        exact beq_eq_false_iff_ne.mpr stopped
      have further := ih (moved.cursor.grounded hc) (show cursor.left < k by omega) onward
      have round : Grammar.round (statementWithin k) (.symbol .closeBrace)
          (sequence (statementWithin k) (.symbol .closeBrace) n) ⟨c.pastNewlines, none⟩ =
            .done (first :: rest) d := by
        rw [round_eq, read]
        dsimp only
        rw [Process.bind_apply, further]
        rfl
      exact (sequence_of_going (s := ⟨c, none⟩) grounded going).trans round

/-! ### Blocks without faults -/

private theorem sequence_of_close {statement : Parsing Stmt} {behind breaks tail : List Token}
    {closing : Token} {noted : Option (List SyntaxError)}
    (newlines : ∀ b ∈ breaks, b.kind = .newline) (hclosing : closing.kind = .symbol .closeBrace)
    (ended : ∃ t ∈ tail, t.kind = .finish) {rounds : Nat} (some : 1 ≤ rounds) :
    sequence statement (.symbol .closeBrace) rounds
        ⟨.between behind (breaks ++ closing :: tail), noted⟩ =
      .done [] ⟨.between (breaks.reverse ++ behind) (closing :: tail), noted⟩ := by
  obtain ⟨rounds, rfl⟩ := Nat.exists_eq_add_of_le' some
  obtain ⟨f, hf, hfinish⟩ := ended
  have past : (Stream.mk (.between behind (breaks ++ closing :: tail)) noted).pastNewlines =
      ⟨.between (breaks.reverse ++ behind) (closing :: tail), noted⟩ := by
    unfold Stream.pastNewlines
    rw [Cursor.pastNewlines_append newlines, Cursor.pastNewlines_cons (by simp [hclosing])]
  have grounded : (Cursor.between behind (breaks ++ closing :: tail)).Grounded :=
    ⟨rfl, f, by simp [Cursor.between, hf], hfinish⟩
  have peek : (Cursor.between (breaks.reverse ++ behind) (closing :: tail)).peek = closing := rfl
  rw [sequence_of_stopped grounded]
  · rw [past]
  · rw [past]
    simp [Cursor.check, Cursor.atEnd, peek, hclosing]

section

variable {body : List Token} {stop : Token} {program : Program}
variable (inside : ∀ t ∈ body, t.kind ≠ .finish) (finish : stop.kind = .finish)
variable (parsed : Program.ofTokens (body ++ [stop]) = some (.ok program))
include inside finish parsed

private theorem exists_breaks_of_ofTokens :
    ∃ front breaks, body = front ++ breaks ∧ (∀ b ∈ breaks, b.kind = .newline) ∧
      (front = [] ∨ Fenced True front) := by
  have grounded : (Cursor.ofTokens (body ++ [stop])).Grounded :=
    ⟨rfl, stop, List.mem_append_right body List.mem_cons_self, finish⟩
  obtain ⟨d, run⟩ := ofTokens_eq_some_ok.mp parsed
  obtain ⟨used, walk, forms⟩ :=
    (parses_statements (s := .plain (body ++ [stop])) grounded).of_done run
  obtain ⟨front, breaks, rfl, formed, newlines⟩ := forms rfl
  have stopped : d.cursor.peek.kind = .finish := by
    have stop := stop_of_sequence run
    simpa [Cursor.check, Cursor.atEnd] using stop
  have same : body = front ++ breaks := by
    have passed := walk.cursor.takeWhile_eq (walk.cursor.grounded grounded) stopped
    change (body ++ [stop]).takeWhile (·.kind != .finish) = _ at passed
    rw [← passed, List.takeWhile_append_of_pos (by simpa using inside),
      List.takeWhile_cons_of_neg (by simp [finish]), List.append_nil]
  refine ⟨front, breaks, same, newlines, formed.endsFenced.imp_right fun ends => ?_⟩
  exact ⟨ends.getLast?, fun t ht => inside t (by simp [same, ht]), fun _ _ _ => trivial⟩

/-- A recovering stream reads the program to the end without noting a fault, also if a closing brace
would end it, and wherever it stands. -/
theorem exists_unnoted (behind : List Token) :
    ∃ statements s, sequence (statementWithin (body.length + 5)) (.symbol .closeBrace)
      (body.length + 5)
        ⟨.between behind (body ++ [stop]), some []⟩ = .done statements s ∧
      Continuations.Exhausted s ∧ s.noted = some [] := by
  have grounded : (Cursor.ofTokens (body ++ [stop])).Grounded :=
    ⟨rfl, stop, List.mem_append_right body List.mem_cons_self, finish⟩
  have short : (Cursor.ofTokens (body ++ [stop])).left < (body ++ [stop]).length := grounded.left_lt
  rw [List.length_append, List.length_singleton] at short
  obtain ⟨d, run⟩ := ofTokens_eq_some_ok.mp parsed
  rw [statements_eq, List.length_append, List.length_singleton] at run
  have stopped : d.cursor.peek.kind = .finish := by
    have stop := stop_of_sequence run
    simpa [Cursor.check, Cursor.atEnd] using stop
  have run' := sequence_closing grounded (show _ < body.length + 1 + 4 by omega) run
  obtain ⟨cursor, rfl, same⟩ :=
    ((Agrees.statementWithin _).sequence (.symbol .closeBrace) _).done_state run'
  have alike : (Cursor.ofTokens (body ++ [stop])).Alike (.between behind (body ++ [stop])) :=
    .intro inside finish (Nat.le_refl 0)
  have related : (StreamTracking.ahead []).parsings.state ⟨.ofTokens (body ++ [stop]), some []⟩
      ⟨.between behind (body ++ [stop]), some []⟩ := ⟨alike, rfl⟩
  obtain ⟨statements, ⟨c, noted⟩, run, -, onward, rfl⟩ :=
    (sequence_ahead [] (.symbol .closeBrace) (Nat.le_refl (body.length + 5)) (Nat.le_refl _)
      related).of_done (same [])
  exact ⟨statements, _, run,
    ⟨onward.grounded.2, onward.peek_eq ▸ stopped, Option.some_ne_none _⟩, rfl⟩

private theorem exists_closed {closing : Token} {tail : List Token}
    (hclosing : closing.kind = .symbol .closeBrace) (ended : ∃ t ∈ tail, t.kind = .finish) {k : Nat}
    (wide : body.length + 6 ≤ k) (behind : List Token) :
    ∃ statements behind', sequence (statementWithin k) (.symbol .closeBrace) k
        ⟨.between behind (body ++ closing :: tail), some []⟩ =
      .done statements ⟨.between behind' (closing :: tail), some []⟩ := by
  obtain ⟨front, breaks, rfl, newlines, fenced⟩ := exists_breaks_of_ofTokens inside finish parsed
  obtain ⟨statements, s, run, exhausted, clean⟩ := exists_unnoted inside finish parsed behind
  have ⟨f, hf, hfinish⟩ := ended
  let P : Continuations := {
    tail := breaks ++ [stop]
    tail' := breaks ++ closing :: tail
    braced := True
    blank := .intro newlines finish
    ensuing := .intro newlines (by simp [hclosing]) (by simp [hclosing])
      ⟨f, List.mem_cons_of_mem closing hf, hfinish⟩
    longer := by simp }
  have arrived : P.Arrived ⟨.between behind (front ++ (breaks ++ [stop])), some []⟩
      ⟨.between behind (front ++ (breaks ++ closing :: tail)), some []⟩ := by
    refine ⟨?_, rfl, nofun⟩
    obtain rfl | fenced := fenced
    · exact .behind
    · exact .before (.intro fenced)
  have agree : P.SequencesAgree (statementWithin k) (.symbol .closeBrace) 1 _ _ :=
    Continuations.sequencesAgree_sequence
      (Continuations.parseAlike_statementWithin
        (show (front ++ breaks).length + 5 ≤ k by omega)) (.inl rfl)
      (show (front ++ breaks).length + 5 + 1 ≤ k by omega) arrived
  rw [List.append_assoc] at run ⊢
  rw [run] at agree
  generalize sequence (statementWithin k) (.symbol .closeBrace) k _ = o at agree ⊢
  cases agree with
  | stopped before => exact absurd exhausted.ended before.1.peek_eq.2
  | lost _ _ blotted => exact absurd clean blotted
  | @crossed _ _ behind' rounds enough _ =>
    have closed : sequence (statementWithin k) (.symbol .closeBrace) rounds
        ⟨.between behind' P.tail', some []⟩ = _ := sequence_of_close newlines hclosing ended enough
    rw [clean, Process.bind_apply, closed]
    exact ⟨_, _, rfl⟩

theorem exists_enclosed {opening closing : Token} {tail : List Token}
    (hopening : opening.kind = .symbol .openBrace) (hclosing : closing.kind = .symbol .closeBrace)
    (ended : ∃ t ∈ tail, t.kind = .finish) {k : Nat} (wide : body.length + 7 ≤ k) :
    ∃ a behind, statementWithin k ⟨.between [] (opening :: body ++ closing :: tail), some []⟩ =
      .done a ⟨.between behind tail, some []⟩ := by
  obtain ⟨k, rfl⟩ := Nat.exists_eq_add_of_le' (show 1 ≤ k by omega)
  obtain ⟨statements, behind, run⟩ :=
    exists_closed inside finish parsed hclosing ended (show body.length + 6 ≤ k by omega) [opening]
  obtain ⟨f, hf, hfinish⟩ := ended
  let s : Stream := ⟨.between [] (opening :: body ++ closing :: tail), some []⟩
  have grounded : s.cursor.Grounded := ⟨rfl, f, by simp [s, Cursor.between, hf], hfinish⟩
  have grounded' : (Cursor.between behind (closing :: tail)).Grounded :=
    ⟨rfl, f, by simp [Cursor.between, hf], hfinish⟩
  have opened : s.cursor.peek.kind = .symbol .openBrace := hopening
  have closed : (Cursor.between behind (closing :: tail)).peek.kind = .symbol .closeBrace :=
    hclosing
  have step : s.cursor.advance = .between [opening] (body ++ closing :: tail) :=
    advance_cons (t := opening) (by simp [hopening]) []
  have step' : (Cursor.between behind (closing :: tail)).advance =
      .between (closing :: behind) tail :=
    advance_cons (t := closing) (by simp [hclosing]) behind
  rw [← step] at run
  refine ⟨.block statements, closing :: behind, ?_⟩
  change statementWithin (k + 1) s = _
  rw [statementWithin_of_brace grounded opened, block_of_sequence grounded opened run,
    Process.bind_apply, under_apply, close_eq grounded', if_pos closed, step']
  rfl

end

end DaiScript.Grammar
