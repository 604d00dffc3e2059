import DaiScript.Proofs.ExpressionComplete
import DaiScript.Proofs.Image

/-! Reading undoes printing. A regular statement is read back from its tokens in front of every
token that starts no other part of it: only a dangling one can go on, and only with `natra`. -/
namespace DaiScript

def Stream.between (noted : Option (List SyntaxError)) (behind ahead : List Token) : Stream :=
  ⟨.between behind ahead, noted⟩

namespace Grammar

open Reading

section

variable {noted : Option (List SyntaxError)} {used rest more breaks : List Token}
variable {t ending : Token} {gap : Position}

theorem consumes_under {r : Reading α} {a : α} (h : Accepts r used rest a) :
    Consumes (Stream.between noted) (under r) used rest a := by
  intro behind
  rw [under_apply]
  change (r (Cursor.between behind (used ++ rest))).mapState _ = _
  rw [h behind]
  rfl

theorem accepts_skipNewlines (newlines : ∀ b ∈ breaks, b.kind = .newline)
    (other : t.kind ≠ .newline) : Accepts skipNewlines breaks (t :: more) () := by
  intro behind
  have past : (Cursor.between behind (breaks ++ t :: more)).pastNewlines =
      .between (breaks.reverse ++ behind) (t :: more) := by
    rw [Cursor.pastNewlines_append newlines, Cursor.pastNewlines_cons other]
  have seen : (Cursor.between (breaks.reverse ++ behind) (t :: more)).check .newline = false := by
    simp [Cursor.between, Cursor.check, Cursor.peek, other]
  simp [skipNewlines, past, seen]

theorem accepts_expression {e : Expr} (h : Spells used (.expr .assignment e))
    (follows : Follows .assignment rest) : Accepts expression used rest e := by
  intro behind
  apply Read.expression h.read _ follows
  simp only [Cursor.reach, Cursor.between, List.length_append]
  omega

private theorem accepts_items {es : List Expr} (h : Spells used (.items es))
    (follows : Follows .assignment (t :: rest)) (other : t.kind ≠ .symbol .comma) :
    Accepts (layer items) used (t :: rest) es := by
  intro behind
  apply h.read _ _ follows (by simpa using other)
  all_goals
    simp only [Cursor.reach, Cursor.between, List.length_append]
    omega

theorem accepts_semicolon (hk : ending.kind = .symbol .semicolon) :
    Accepts semicolon [ending] rest () :=
  (Accepts.expect hk (by simp)).map rfl

theorem follows_semicolon (hk : ending.kind = .symbol .semicolon) :
    Follows .assignment (ending :: rest) :=
  ⟨ending, rest, rfl, by rw [hk]; decide⟩

def starts : Kind → Bool
  | .keyword k =>
    match k with
    | .solti | .lekh | .yadi | .jabaSamma | .vaiVayoRokki | .aghiBadhVai => true
    | _ => opens (.keyword k)
  | .symbol .openBrace => true
  | kind => opens kind || (UnaryOp.ofKind? kind).isSome

theorem ne_of_starts {kind other : Kind} (h : starts kind = true) (k : starts other = false) :
    kind ≠ other := by
  rintro rfl
  rw [h] at k
  contradiction

theorem starts_of_operand {kind : Kind}
    (h : opens kind = true ∨ (UnaryOp.ofKind? kind).isSome = true) : starts kind = true := by
  cases kind with
  | keyword k => cases k <;> simp_all [starts, opens, UnaryOp.ofKind?]
  | symbol s => cases s <;> simp_all [starts, opens, UnaryOp.ofKind?]
  | _ => simp_all [starts, opens, UnaryOp.ofKind?]

theorem Spells.head_operand {e : Expr} (h : Spells used (.expr .assignment e)) :
    ∃ t more, used = t :: more ∧
      (opens t.kind = true ∨ (UnaryOp.ofKind? t.kind).isSome = true) := by
  obtain ⟨t, more, rfl, start⟩ := h.head
  exact ⟨t, more, rfl, start.imp_right And.right⟩

def entered (bound : Nat) : Kind → Parsing Stmt
  | .keyword .yadi => under advance >>= fun _ => branch (statementWithin bound)
  | .keyword .jabaSamma => do
    under advance
    let test ← under expression
    let body ← statementWithin bound
    return .loop test body
  | .symbol .openBrace => block (statementWithin bound) bound
  | _ => under simple

theorem statementWithin_succ (bound : Nat) :
    statementWithin (bound + 1) = (do
      under skipNewlines
      let token ← under peek
      entered bound token.kind) := by
  rfl

private theorem entered_of_operand {kind : Kind}
    (h : opens kind = true ∨ (UnaryOp.ofKind? kind).isSome = true) (n : Nat) :
    entered n kind = under simple := by
  unfold entered
  split
  · simp [opens, UnaryOp.ofKind?] at h
  · simp [opens, UnaryOp.ofKind?] at h
  · simp [opens, UnaryOp.ofKind?] at h
  · rfl

theorem consumes_statementWithin {n : Nat} {s : Stmt} (newlines : ∀ b ∈ breaks, b.kind = .newline)
    (start : starts t.kind = true)
    (h : Consumes (Stream.between noted) (entered n t.kind) (t :: more) rest s) :
    Consumes (Stream.between noted) (statementWithin (n + 1)) (breaks ++ t :: more) rest s := by
  have other : t.kind ≠ .newline := ne_of_starts start rfl
  rw [statementWithin_succ]
  apply Consumes.bind breaks (t :: more) (consumes_under (accepts_skipNewlines newlines other))
  have seen : Accepts peek [] (t :: more ++ rest) t := fun _ => rfl
  exact Consumes.bind [] (t :: more) (consumes_under seen) h

private theorem accepts_simple_declare {text : Token} (hk : t.kind = .keyword .solti)
    (hname : text.kind = .name) (hend : ending.kind = .symbol .semicolon) :
    Accepts simple [t, text, ending] rest (.declare text.lexeme.nameText none t.position) := by
  apply Accepts.peek_bind (t := t) rfl
  simp only [hk]
  apply Consumes.bind [t] [text, ending] (Accepts.advance (by simp [hk]))
  apply Consumes.bind [text] [ending] (Accepts.expect hname (by simp))
  apply Consumes.bind [] [ending] (a := none) ((Accepts.decline (by simp [hend])).map rfl)
  exact (accepts_semicolon hend).map rfl

private theorem accepts_simple_define {text equals : Token} {e : Expr}
    (hk : t.kind = .keyword .solti) (hname : text.kind = .name)
    (hequals : equals.kind = .symbol .assign) (h : Spells used (.expr .assignment e))
    (hend : ending.kind = .symbol .semicolon) :
    Accepts simple (t :: text :: equals :: used ++ [ending]) rest
      (.declare text.lexeme.nameText (some e) t.position) := by
  apply Accepts.peek_bind (t := t) rfl
  simp only [hk]
  apply Consumes.bind [t] (text :: equals :: used ++ [ending]) (Accepts.advance (by simp [hk]))
  apply Consumes.bind [text] (equals :: used ++ [ending]) (Accepts.expect hname (by simp))
  apply Consumes.bind [equals] (used ++ [ending]) (Accepts.accept hequals (by simp))
  apply Consumes.bind used [ending] (a := some e)
  · rw [map_eq_pure_bind]
    exact (accepts_expression h (follows_semicolon hend)).map rfl
  · exact (accepts_semicolon hend).map rfl

theorem accepts_check {kind : Kind} (inside : kind ≠ .finish) :
    Accepts (Process.read (·.check kind)) [] (t :: rest) (t.kind == kind) := by
  intro behind
  have seen : (Cursor.between behind (t :: rest)).check kind = (t.kind == kind) := by
    by_cases hk : t.kind = kind <;>
      simp [Cursor.between, Cursor.check, Cursor.atEnd, Cursor.peek, hk, inside]
  exact congrArg (Outcome.done · _) seen

private theorem accepts_simple_printNone (hk : t.kind = .keyword .lekh)
    (hend : ending.kind = .symbol .semicolon) :
    Accepts simple [t, ending] rest (.print [] t.position) := by
  apply Accepts.peek_bind (t := t) rfl
  simp only [hk]
  apply Consumes.bind [t] [ending] (Accepts.advance (by simp [hk]))
  apply Consumes.bind [] [ending] (accepts_check (by simp))
  simp only [hend, beq_self_eq_true, if_true, pure_bind]
  exact (accepts_semicolon hend).map rfl

private theorem accepts_simple_print {es : List Expr} (hk : t.kind = .keyword .lekh)
    (h : Spells used (.items es)) (hend : ending.kind = .symbol .semicolon) :
    Accepts simple (t :: used ++ [ending]) rest (.print es t.position) := by
  obtain ⟨head, more, rfl, start⟩ := h.head_items
  have other : (head.kind == .symbol .semicolon) = false := by
    cases same : head.kind == .symbol .semicolon with
    | false => rfl
    | true =>
      rw [beq_iff_eq.mp same] at start
      exact absurd start (by decide)
  apply Accepts.peek_bind (t := t) rfl
  simp only [hk]
  apply Consumes.bind [t] (head :: more ++ [ending]) (Accepts.advance (by simp [hk]))
  apply Consumes.bind [] (head :: more ++ [ending]) (accepts_check (by simp))
  simp only [other, Bool.false_eq_true, if_false]
  apply Consumes.bind (head :: more) [ending]
    (accepts_items h (follows_semicolon hend) (by simp [hend]))
  exact (accepts_semicolon hend).map rfl

theorem accepts_simple_bare {s : Stmt}
    (h : t.kind = .keyword .vaiVayoRokki ∧ s = .leave t.position ∨
      t.kind = .keyword .aghiBadhVai ∧ s = .next t.position)
    (hend : ending.kind = .symbol .semicolon) : Accepts simple [t, ending] rest s := by
  apply Accepts.peek_bind (t := t) rfl
  obtain ⟨hk, rfl⟩ | ⟨hk, rfl⟩ := h
  all_goals
    simp only [hk]
    apply Consumes.bind [t] [ending] (Accepts.advance (by simp [hk]))
    exact (accepts_semicolon hend).map rfl

private theorem accepts_simple_expr {e : Expr} (h : Spells used (.expr .assignment e))
    (hend : ending.kind = .symbol .semicolon) :
    Accepts simple (used ++ [ending]) rest (.expr e) := by
  obtain ⟨t, more, rfl, start⟩ := h.head_operand
  apply Accepts.peek_bind (t := t) rfl
  split
  · next hk => simp [hk, opens, UnaryOp.ofKind?] at start
  · next hk => simp [hk, opens, UnaryOp.ofKind?] at start
  · next hk => simp [hk, opens, UnaryOp.ofKind?] at start
  · next hk => simp [hk, opens, UnaryOp.ofKind?] at start
  · apply Consumes.bind (t :: more) [ending] (accepts_expression h (follows_semicolon hend))
    exact (accepts_semicolon hend).map rfl

/-! ### Statements with statements inside -/

/-- The next token can neither be skipped nor belong to a statement that ended in front of it. -/
def Settled (rest : List Token) : Prop :=
  ∃ t more, rest = t :: more ∧ t.kind ≠ .newline ∧ t.kind ≠ .keyword .natra

private theorem settled_of_starts (h : starts t.kind = true) : Settled (t :: rest) :=
  ⟨t, rest, rfl, ne_of_starts h rfl, ne_of_starts h rfl⟩

def ReadBack (noted : Option (List SyntaxError)) (gap : Position) (s : Stmt) : Prop :=
  ∀ n breaks rest, (s.tokens gap).length < n → (∀ b ∈ breaks, b.kind = .newline) →
    (s.dangling = true → Settled rest) →
    Consumes (Stream.between noted) (statementWithin n) (breaks ++ s.tokens gap) rest s

theorem readBack_of_simple {s : Stmt} (shape : s.tokens gap = t :: more)
    (start : starts t.kind = true) (dispatch : ∀ n, entered n t.kind = under simple)
    (h : ∀ {rest}, Accepts simple (t :: more) rest s) : ReadBack noted gap s := by
  intro n breaks rest enough newlines _
  cases n with
  | zero => omega
  | succ n =>
    rw [shape]
    apply consumes_statementWithin newlines start
    rw [dispatch]
    exact consumes_under h

private theorem consumes_otherwise_none {statement : Parsing Stmt} {test : Expr} {consequent : Stmt}
    (settled : Settled rest) :
    Consumes (Stream.between noted) (otherwise statement test consequent) [] rest
      (.branch test consequent none) := by
  obtain ⟨t, more, rfl, other, other'⟩ := settled
  intro behind
  have skipped : Consumes (Stream.between noted) (under skipNewlines) [] (t :: more) () :=
    consumes_under (accepts_skipNewlines (by simp) other)
  have declined : Consumes (Stream.between noted) (under (accept? (.keyword .natra))) [] (t :: more)
      none := consumes_under (Accepts.decline other')
  exact otherwise_of_declined (skipped behind) (declined behind)

private theorem consumes_otherwise_some {statement : Parsing Stmt} {test : Expr}
    {consequent alternate : Stmt} (hk : t.kind = .keyword .natra)
    (h : Consumes (Stream.between noted) statement more rest alternate) :
    Consumes (Stream.between noted) (otherwise statement test consequent) (t :: more) rest
      (.branch test consequent (some alternate)) := by
  intro behind
  have skipped : Consumes (Stream.between noted) (under skipNewlines) [] (t :: more ++ rest) () :=
    consumes_under (accepts_skipNewlines (by simp) (by simp [hk]))
  have accepted : Consumes (Stream.between noted) (under (accept? (.keyword .natra))) [t]
      (more ++ rest)
      (some t) := consumes_under (Accepts.accept hk (by simp))
  have read : Consumes (Stream.between noted) (statement >>= fun alternate =>
      Pure.pure (Stmt.branch test consequent (some alternate))) more rest _ := h.map rfl
  refine (otherwise_of_accepted (skipped behind) (accepted behind)).trans ?_
  have run := read (t :: behind)
  simpa using run

theorem consumes_branch {statement : Parsing Stmt} {test : Expr} {consequent s : Stmt}
    {bhane : Token} {first second third : List Token} (h : Spells first (.expr .assignment test))
    (hk : bhane.kind = .keyword .bhane)
    (k : Consumes (Stream.between noted) statement second (third ++ rest) consequent)
    (l : Consumes (Stream.between noted) (otherwise statement test consequent) third rest s) :
    Consumes (Stream.between noted) (branch statement) (first ++ bhane :: second ++ third)
      rest s := by
  have follows : ∀ {rest}, Follows .assignment (bhane :: rest) :=
    fun {rest} => ⟨bhane, rest, rfl, by rw [hk]; decide⟩
  rw [branch_eq, List.append_assoc]
  apply Consumes.bind first (bhane :: second ++ third)
    (consumes_under (accepts_expression h follows))
  apply Consumes.bind [bhane] (second ++ third) (consumes_under (Accepts.expect hk (by simp)))
  exact Consumes.bind second third k l

private theorem readBack_branch {test : Expr} {consequent : Stmt} {alternate : Option Stmt}
    (regular : test.regular = true) (h : ReadBack noted gap consequent)
    (closed : alternate.isSome → consequent.dangling = false)
    (k : ∀ s ∈ alternate, ReadBack noted gap s) :
    ReadBack noted gap (.branch test consequent alternate) := by
  intro n breaks rest enough newlines settled
  have spelled : Spells (test.tokens gap) _ := Expr.spells_assignment (test.spells_tokens regular)
  simp only [Stmt.tokens, List.length_cons, List.length_append] at enough ⊢
  cases n with
  | zero => omega
  | succ n =>
    apply consumes_statementWithin newlines rfl
    apply Consumes.bind [⟨.keyword .yadi, gap⟩] _ (consumes_under (Accepts.advance nofun))
    cases alternate with
    | none =>
      -- The branch is dangling itself, so what settles it settles its consequent.
      refine consumes_branch spelled rfl (h n [] rest (by omega) (by simp) fun _ => settled rfl) ?_
      exact consumes_otherwise_none (settled rfl)
    | some s =>
      -- The consequent is not dangling and leaves `natra` to this branch.
      apply consumes_branch spelled rfl (h n [] _ (by omega) (by simp) (by simp [closed]))
      simp only [Stmt.elseTokens, List.length_cons] at enough
      exact consumes_otherwise_some rfl (k s rfl n [] _ (by omega) (by simp) settled)

private theorem readBack_loop {test : Expr} {body : Stmt} (regular : test.regular = true)
    (h : ReadBack noted gap body) : ReadBack noted gap (.loop test body) := by
  intro n breaks rest enough newlines settled
  have spelled : Spells (test.tokens gap) _ := Expr.spells_assignment (test.spells_tokens regular)
  have follows : ∀ rest, Follows .assignment (⟨.newline, gap⟩ :: rest) := by
    intro rest
    have joined : Layer.rank .assignment < joins .newline := by decide
    exact ⟨_, _, rfl, joined⟩
  simp only [Stmt.tokens, List.length_cons, List.length_append] at enough ⊢
  cases n with
  | zero => omega
  | succ n =>
    apply consumes_statementWithin newlines rfl
    apply Consumes.bind [⟨.keyword .jabaSamma, gap⟩] _ (consumes_under (Accepts.advance nofun))
    apply Consumes.bind (test.tokens gap) _
      (consumes_under (accepts_expression spelled (follows _)))
    have newline : ∀ b ∈ [(⟨.newline, gap⟩ : Token)], b.kind = .newline := by
      simp [Token.kind, Lexeme.newline]
    exact (h n [⟨.newline, gap⟩] rest (by omega) newline settled).map rfl

theorem starts_tokens (gap : Position) {s : Stmt} (regular : s.regular = true) :
    ∃ t more, s.tokens gap = t :: more ∧ starts t.kind = true := by
  cases s with
  | expr e =>
    have spelled : Spells (e.tokens gap) _ := Expr.spells_assignment (e.spells_tokens regular)
    obtain ⟨t, more, shape, start⟩ := spelled.head_operand
    exact ⟨t, _, by rw [Stmt.tokens, shape]; rfl, starts_of_operand start⟩
  | declare name value position => cases value <;> exact ⟨_, _, rfl, rfl⟩
  | _ => exact ⟨_, _, rfl, rfl⟩

structure Closes (closing : Kind) (t : Token) : Prop where
  kind : t.kind = closing
  outside : closing = .finish ∨ closing = .symbol .closeBrace

theorem Closes.settled {closing : Kind} (h : Closes closing t) : Settled (t :: rest) := by
  refine ⟨t, rest, rfl, ?_, ?_⟩
  all_goals
    rw [h.kind]
    obtain same | same := h.outside <;> simp [same]

private theorem settled_sequence {body : List Stmt} {closing : Kind}
    (regular : Stmt.allRegular body = true) (h : Closes closing t) :
    Settled (Stmt.sequenceTokens gap body ++ t :: rest) := by
  cases body with
  | nil => exact h.settled
  | cons s body =>
    simp only [Stmt.allRegular, Bool.and_eq_true] at regular
    obtain ⟨t, more, shape, start⟩ := starts_tokens gap regular.1
    rw [Stmt.sequenceTokens, shape]
    exact settled_of_starts start

theorem accepts_stop {closing : Kind} :
    Accepts (Process.read fun c => c.atEnd || c.check closing) [] (t :: rest)
      (t.kind == .finish || t.kind == closing) := by
  intro behind
  have seen : ((Cursor.between behind (t :: rest)).atEnd ||
      (Cursor.between behind (t :: rest)).check closing) =
        (t.kind == .finish || t.kind == closing) := by
    cases inside : t.kind == .finish <;>
      simp [Cursor.between, Cursor.check, Cursor.atEnd, Cursor.peek, inside]
  exact congrArg (Outcome.done · _) seen

private theorem consumes_last_round {statement : Parsing Stmt} {closing : Kind} {bound : Nat}
    (ends : Closes closing t) :
    Consumes (Stream.between noted) (sequence statement closing (bound + 1)) [] (t :: rest) [] := by
  obtain ⟨head, more, shape, other, -⟩ : Settled (t :: rest) := ends.settled
  cases shape
  apply Consumes.bind [] [] (consumes_under (accepts_skipNewlines (by simp) other))
  apply Consumes.bind [] [] (consumes_under accepts_stop)
  simp only [ends.kind, beq_self_eq_true, Bool.or_true, if_true]
  exact .pure

private theorem consumes_round {statement : Parsing Stmt} {closing : Kind} {bound : Nat} {s : Stmt}
    {body : List Stmt} {first : List Token} (start : starts t.kind = true)
    (stops : starts closing = false)
    (h : Consumes (Stream.between noted) statement (t :: more) (first ++ rest) s)
    (k : Consumes (Stream.between noted) (sequence statement closing bound) first rest body) :
    Consumes (Stream.between noted) (sequence statement closing (bound + 1))
      (t :: more ++ first) rest
      (s :: body) := by
  have inside : t.kind ≠ .finish := ne_of_starts start rfl
  have going : (t.kind == .finish || t.kind == closing) = false := by
    simp [inside, ne_of_starts start stops]
  have skipped : Accepts skipNewlines [] (t :: more ++ first ++ rest) () :=
    accepts_skipNewlines (by simp) (ne_of_starts start rfl)
  have attempted : Consumes (Stream.between noted) (Process.attempt statement) (t :: more)
      (first ++ rest) (.ok s) := by
    intro behind
    rw [Process.attempt_apply, h behind]
  apply Consumes.bind [] _ (consumes_under skipped)
  apply Consumes.bind [] _ (consumes_under accepts_stop)
  simp only [going, Bool.false_eq_true, if_false]
  apply Consumes.bind (t :: more) _ attempted
  exact k.map rfl

theorem consumes_sequence {body : List Stmt} {closing : Kind} {n bound : Nat}
    (regular : Stmt.allRegular body = true) (h : ∀ s ∈ body, ReadBack noted gap s)
    (ends : Closes closing t) (fits : (Stmt.sequenceTokens gap body).length < n)
    (enough : (Stmt.sequenceTokens gap body).length < bound) :
    Consumes (Stream.between noted) (sequence (statementWithin n) closing bound)
      (Stmt.sequenceTokens gap body) (t :: rest) body := by
  have stops : starts closing = false := by
    obtain same | same := ends.outside <;> rw [same] <;> rfl
  induction body generalizing bound with
  | nil =>
    cases bound with
    | zero => omega
    | succ bound => exact consumes_last_round ends
  | cons s body ih =>
    simp only [Stmt.allRegular, Bool.and_eq_true] at regular
    obtain ⟨head, more, shape, start⟩ := starts_tokens gap regular.1
    rw [Stmt.sequenceTokens, List.length_append] at fits enough
    -- Each statement has a token, so a bound above the number of tokens lasts for all rounds.
    have nonempty : 0 < (s.tokens gap).length := by simp [shape]
    have first : Consumes (Stream.between noted) (statementWithin n) (s.tokens gap)
        (Stmt.sequenceTokens gap body ++ t :: rest) s :=
      h s (by simp) n [] _ (by omega) (by simp) fun _ => settled_sequence regular.2 ends
    cases bound with
    | zero => omega
    | succ bound =>
      rw [Stmt.sequenceTokens]
      rw [shape] at first ⊢
      apply consumes_round start stops first
      exact ih regular.2 (fun s hs => h s (by simp [hs])) (by omega) (by omega)

private theorem readBack_block {body : List Stmt} (regular : Stmt.allRegular body = true)
    (h : ∀ s ∈ body, ReadBack noted gap s) : ReadBack noted gap (.block body) := by
  intro n breaks rest enough newlines _
  simp only [Stmt.tokens, List.length_cons, List.length_append] at enough ⊢
  cases n with
  | zero => omega
  | succ n =>
    have ends : Closes (.symbol .closeBrace) ⟨.symbol .closeBrace, gap⟩ := ⟨rfl, .inr rfl⟩
    apply consumes_statementWithin newlines rfl
    apply Consumes.bind [⟨.symbol .openBrace, gap⟩] _ (consumes_under (Accepts.expect rfl nofun))
    apply Consumes.bind (Stmt.sequenceTokens gap body) _
      (consumes_sequence regular h ends (by omega) (by omega))
    exact (consumes_under (Accepts.close rfl)).map rfl

private theorem readBack_declare {name : String} {value : Option Expr} {position : Position}
    (regular : value.all Expr.regular = true) :
    ReadBack noted gap (.declare name value position) := by
  cases value with
  | none =>
    exact readBack_of_simple rfl rfl (fun _ => rfl) (accepts_simple_declare rfl rfl rfl)
  | some e =>
    have spelled : Spells (e.tokens gap) _ := Expr.spells_assignment (e.spells_tokens regular)
    exact readBack_of_simple rfl rfl (fun _ => rfl) (accepts_simple_define rfl rfl rfl spelled rfl)

private theorem readBack_expr {e : Expr} (regular : e.regular = true) :
    ReadBack noted gap (.expr e) := by
  have spelled : Spells (e.tokens gap) _ := Expr.spells_assignment (e.spells_tokens regular)
  obtain ⟨t, more, shape, start⟩ := spelled.head_operand
  have whole : (Stmt.expr e).tokens gap = t :: (more ++ [⟨.symbol .semicolon, gap⟩]) := by
    rw [Stmt.tokens, shape, List.cons_append]
  rw [shape] at spelled
  exact readBack_of_simple whole (starts_of_operand start) (entered_of_operand start)
    (accepts_simple_expr spelled rfl)

private theorem readBack_print {arguments : List Expr} {position : Position}
    (regular : Expr.allRegular arguments = true) :
    ReadBack noted gap (.print arguments position) := by
  cases arguments with
  | nil => exact readBack_of_simple rfl rfl (fun _ => rfl) (accepts_simple_printNone rfl rfl)
  | cons e es =>
    simp only [Expr.allRegular, Bool.and_eq_true] at regular
    have spelled : Spells (Expr.itemTokens gap (e :: es)) _ :=
      .items (Expr.spells_assignment (e.spells_tokens regular.1))
        (Expr.spells_moreTokens es regular.2)
    exact readBack_of_simple rfl rfl (fun _ => rfl) (accepts_simple_print rfl spelled rfl)

mutual

theorem readBack (s : Stmt) (regular : s.regular = true) : ReadBack noted gap s := by
  cases s with
  | declare name value position => exact readBack_declare regular
  | expr e => exact readBack_expr regular
  | print arguments position => exact readBack_print regular
  | branch test consequent alternate =>
    simp only [Stmt.regular, Bool.and_eq_true] at regular
    obtain ⟨⟨⟨testRegular, inner⟩, closed⟩, rest⟩ := regular
    apply readBack_branch testRegular (readBack consequent inner) _ (readBack_else alternate rest)
    intro present
    simpa [Option.isSome_iff_ne_none.mp present] using closed
  | loop test body =>
    simp only [Stmt.regular, Bool.and_eq_true] at regular
    exact readBack_loop regular.1 (readBack body regular.2)
  | block body => exact readBack_block regular (readBack_all body regular)
  | leave position =>
    exact readBack_of_simple rfl rfl (fun _ => rfl) (accepts_simple_bare (.inl ⟨rfl, rfl⟩) rfl)
  | next position =>
    exact readBack_of_simple rfl rfl (fun _ => rfl) (accepts_simple_bare (.inr ⟨rfl, rfl⟩) rfl)

theorem readBack_else (alternate : Option Stmt) (regular : Stmt.regularElse alternate = true) :
    ∀ s ∈ alternate, ReadBack noted gap s := by
  cases alternate with
  | none => simp
  | some s =>
    rintro _ ⟨⟩
    exact readBack s regular

theorem readBack_all (body : List Stmt) (regular : Stmt.allRegular body = true) :
    ∀ s ∈ body, ReadBack noted gap s := by
  cases body with
  | nil => simp
  | cons first body =>
    simp only [Stmt.allRegular, Bool.and_eq_true] at regular
    rw [List.forall_mem_cons]
    exact ⟨readBack first regular.1, readBack_all body regular.2⟩

end

private theorem ofTokens_tokens {program : Program} {stop : Position}
    (regular : program.regular = true) :
    Program.ofTokens (program.tokens gap ++ [.finish stop]) = some (.ok program) := by
  have ends : Closes .finish (.finish stop) := ⟨rfl, .inl rfl⟩
  let n := (program.tokens gap ++ [Token.finish stop]).length + 4
  have reach : (program.tokens gap).length < n := by
    simp only [n, List.length_append]
    omega
  have taken : Consumes (Stream.between none) (sequence (statementWithin n) .finish n)
      (program.tokens gap) [.finish stop] program :=
    consumes_sequence regular (readBack_all program regular) ends reach reach
  have run : statements .finish (.plain (program.tokens gap ++ [.finish stop])) =
      sequence (statementWithin n) .finish n
        (.between none [] (program.tokens gap ++ [.finish stop])) := rfl
  rw [Program.ofTokens, run, taken []]
  rfl

end

/-- Reading undoes printing, places included, and whatever is read is regular. -/
theorem ofTokens_image :
    (∀ (program : Program) (gap stop : Position), program.regular = true →
      Program.ofTokens (program.tokens gap ++ [.finish stop]) = some (.ok program)) ∧
    ∀ (tokens : List Token) (program : Program),
      Program.ofTokens tokens = some (.ok program) → program.regular = true :=
  ⟨fun _ _ _ regular => ofTokens_tokens regular, fun _ _ parsed => regular_of_ofTokens parsed⟩

theorem ofTokens_image_nested :
    let program : Program :=
      [.branch
        (.binary (.name "a" ⟨1, 7, 6⟩) .sub
          (.binary (.name "b" ⟨1, 12, 11⟩) .sub (.name "c" ⟨1, 16, 15⟩) ⟨1, 14, 13⟩) ⟨1, 9, 8⟩)
        (.block [.branch (.literal (.bool true) ⟨2, 8, 33⟩) (.next ⟨2, 19, 44⟩) none])
        (some (.loop
          (.unary .not (.update .increment (.name "n" ⟨4, 19, 80⟩) false ⟨4, 20, 81⟩) ⟨4, 18, 79⟩)
          (.expr (.assign (.name "n" ⟨5, 3, 86⟩) .add (.literal .null ⟨5, 8, 91⟩) ⟨5, 5, 88⟩))))]
    program.regular = true ∧
      Program.ofTokens (program.tokens .start ++ [.finish ⟨5, 14, 97⟩]) = some (.ok program) := by
  intro program
  have regular : program.regular = true := rfl
  have read := ofTokens_image.1 program .start ⟨5, 14, 97⟩ regular
  exact ⟨ofTokens_image.2 _ program read, read⟩

end Grammar

end DaiScript
