import DaiScript.Proofs.TokenMoves
import DaiScript.Proofs.Phrase

/-! Every phrase is read from the tokens that spell it, whatever stands behind them, as long as the
next token cannot go on with the phrase. -/
namespace DaiScript

/-- The cursor between tokens passed, the last one first, and tokens ahead. -/
def Cursor.between (behind ahead : List Token) : Cursor := ⟨behind, ahead, 0⟩

theorem Cursor.pastNewlines_append {breaks : List Token}
    (newlines : ∀ b ∈ breaks, b.kind = .newline) (behind rest : List Token) :
    (Cursor.between behind (breaks ++ rest)).pastNewlines =
      (Cursor.between (breaks.reverse ++ behind) rest).pastNewlines := by
  have skipped : ∀ b ∈ breaks, (b.kind == .newline) = true := by simpa using newlines
  simp only [pastNewlines, between, List.takeWhile_append_of_pos skipped,
    List.dropWhile_append_of_pos skipped, List.reverse_append, List.append_assoc]

theorem Cursor.pastNewlines_cons {t : Token} (other : t.kind ≠ .newline)
    (behind rest : List Token) :
    (Cursor.between behind (t :: rest)).pastNewlines = .between behind (t :: rest) := by
  have stopped : ¬(t.kind == .newline) = true := by simpa using other
  simp [pastNewlines, between, List.takeWhile_cons_of_neg, List.dropWhile_cons_of_neg, stopped]

namespace Reading

abbrev Accepts (r : Reading α) (used rest : List Token) (a : α) : Prop :=
  Consumes Cursor.between r used rest a

variable {used rest : List Token} {t : Token}

theorem Accepts.peek_bind {next : Token → Reading α} {a : α} (head : (used ++ rest).head? = some t)
    (h : Accepts (next t) used rest a) : Accepts (peek >>= next) used rest a := by
  intro behind
  have run := h behind
  have seen : (Cursor.between behind (used ++ rest)).peek = t := by
    simp [Cursor.peek, Cursor.between, head]
  change next (Cursor.between behind (used ++ rest)).peek _ = _
  rw [seen, run]

theorem advance_cons (inside : t.kind ≠ .finish) (behind : List Token) :
    (Cursor.between behind (t :: rest)).advance = .between (t :: behind) rest := by
  simp [Cursor.between, Cursor.advance, Cursor.atEnd, Cursor.peek, inside]

theorem Accepts.advance (inside : t.kind ≠ .finish) : Accepts advance [t] rest () := by
  intro behind
  change Outcome.done () (Cursor.between behind (t :: rest)).advance = _
  rw [advance_cons inside]
  rfl

theorem Accepts.accept {kind : Kind} (hk : t.kind = kind) (inside : kind ≠ .finish) :
    Accepts (accept? kind) [t] rest (some t) := by
  intro behind
  have step : (Cursor.between behind (t :: rest)).advance = .between (t :: behind) rest :=
    advance_cons (by rwa [hk]) behind
  have seen : (Cursor.between behind (t :: rest)).check kind = true := by
    simp [Cursor.between, Cursor.check, Cursor.atEnd, Cursor.peek, hk, inside]
  simp only [accept?, Cursor.advanceIf, List.singleton_append, List.any_cons, seen, step,
    Bool.true_or, if_true]
  rfl

theorem Accepts.decline {kind : Kind} (hk : t.kind ≠ kind) :
    Accepts (accept? kind) [] (t :: rest) none := by
  intro behind
  have seen : (Cursor.between behind (t :: rest)).check kind = false := by
    simp [Cursor.between, Cursor.check, Cursor.peek, hk]
  simp [accept?, Cursor.advanceIf, seen]

theorem Accepts.expect {kind : Kind} (hk : t.kind = kind) (inside : kind ≠ .finish) :
    Accepts (expect kind) [t] rest t :=
  (Accepts.accept hk inside).map rfl

theorem Accepts.close {symbol : Symbol} {delimiter : Char} (hk : t.kind = .symbol symbol) :
    Accepts (close symbol delimiter) [t] rest () :=
  (Accepts.accept hk (by simp)).map rfl

end Reading

namespace Grammar

open Reading

/-! ### What can stand behind a phrase -/

/-- The rank of the tightest layer with which a token of the kind goes on; more than any rank if it
goes on with none. -/
def joins (kind : Kind) : Nat :=
  if kind = .symbol .openParen then Layer.rank .call
  else if (UpdateOp.ofKind? kind).isSome then Layer.rank .updated
  else
    match BinaryOp.ofKind? kind with
    | some op => Layer.rank (.binary op.level)
    | none => if (AssignOp.ofKind? kind).isSome then Layer.rank .assignment else 13

def Follows (layer : Layer) (rest : List Token) : Prop :=
  ∃ t more, rest = t :: more ∧ layer.rank < joins t.kind

theorem Follows.mono {small large : Layer} {rest : List Token} (h : Follows large rest)
    (le : small.rank ≤ large.rank) : Follows small rest := by
  obtain ⟨t, more, rfl, lt⟩ := h
  exact ⟨t, more, rfl, by omega⟩

theorem joins_update (op : UpdateOp) : joins (.symbol op.symbol) = Layer.rank .updated := by
  cases op <;> rfl

theorem joins_binary (op : BinaryOp) :
    joins (.symbol op.symbol) = Layer.rank (.binary op.level) := by
  cases op <;> rfl

theorem joins_assign (op : AssignOp) : joins (.symbol op.symbol) = Layer.rank .assignment := by
  cases op <;> rfl

private theorem ne_openParen_of_joins {kind : Kind} (h : Layer.rank .call < joins kind) :
    kind ≠ .symbol .openParen := by
  intro same
  rw [same] at h
  exact absurd h (by decide)

private theorem updateOp_of_joins {kind : Kind} (h : Layer.rank .updated < joins kind) :
    UpdateOp.ofKind? kind = none := by
  cases found : UpdateOp.ofKind? kind with
  | none => rfl
  | some op =>
    rw [UpdateOp.ofKind?_eq_some.mp found, joins_update] at h
    omega

private theorem binaryOp_of_joins {kind : Kind} {level : Nat}
    (h : Layer.rank (.binary level) < joins kind) :
    (BinaryOp.ofKind? kind).filter (·.level = level) = none := by
  rw [Option.filter_eq_none_iff]
  intro op found
  rw [BinaryOp.ofKind?_eq_some.mp found, joins_binary] at h
  simp only [Layer.rank] at h
  simp
  omega

private theorem assignOp_of_joins {kind : Kind} (h : Layer.rank .assignment < joins kind) :
    AssignOp.ofKind? kind = none := by
  cases found : AssignOp.ofKind? kind with
  | none => rfl
  | some op =>
    rw [AssignOp.ofKind?_eq_some.mp found, joins_assign] at h
    omega

theorem Spells.follows_chain {used rest : List Token} {level : Nat} {left whole : Expr}
    (h : Spells used (.chain (level + 1) left whole)) (k : Follows (.binary (level + 1)) rest) :
    Follows (.binary level) (used ++ rest) := by
  cases h with
  | chainNil => exact k.mono (by simp [Layer.rank])
  | chainCons hk hlevel _ _ =>
    exact ⟨_, _, rfl, by rw [hk, joins_binary, hlevel]; simp [Layer.rank]⟩

private theorem Spells.follows_calls {used rest : List Token} {callee whole : Expr}
    (h : Spells used (.calls callee whole)) (k : Follows .call rest) :
    Follows .primary (used ++ rest) := by
  cases h with
  | callsNil => exact k.mono (by decide)
  | callsCons hk _ _ => exact ⟨_, _, rfl, by rw [hk]; decide⟩

theorem Spells.follows_more {used rest : List Token} {es : List Expr}
    (h : Spells used (.more es)) (k : Follows .assignment rest) :
    Follows .assignment (used ++ rest) := by
  cases h with
  | moreNil => exact k
  | moreCons hk _ _ => exact ⟨_, _, rfl, by rw [hk]; decide⟩

/-! ### Reading what is spelled -/

def Layer.reading (expr : Reading Expr) (bound : Nat) : Layer → Reading Expr
  | primary => Grammar.primary expr bound
  | call => Grammar.call expr bound
  | updated => Grammar.updated expr bound
  | unary => Grammar.unary expr bound
  | binary level => Grammar.binary expr bound level
  | assignment => Grammar.assignment expr bound

/-- The bound that tokens of a layer need: signs may use up all but one of it. -/
def Layer.bound (used : List Token) : Layer → Nat
  | primary | call | updated => used.length
  | unary | binary _ | assignment => used.length + 1

/-- The tokens are read as the phrase in front of everything that does not go on with it. -/
def Read (used : List Token) : Phrase → Prop
  | .expr layer e => ∀ {n bound rest}, used.length ≤ n → layer.bound used ≤ bound →
      Follows layer rest → Accepts (layer.reading (expressionWithin n) bound) used rest e
  | .chain level left whole => ∀ {n outer bound rest}, used.length ≤ n → used.length ≤ outer →
      used.length < bound → Follows (.binary level) rest →
      Accepts (chain level (binary (expressionWithin n) outer (level - 1)) bound left)
        used rest whole
  | .calls callee whole => ∀ {n outer bound rest}, used.length ≤ n → used.length ≤ outer →
      used.length < bound → Follows .call rest →
      Accepts (calls (expressionWithin n) outer bound callee) used rest whole
  | .more es => ∀ {n bound rest}, used.length < n → used.length < bound → Follows .assignment rest →
      rest.head?.map Token.kind ≠ some (.symbol .comma) →
      Accepts (moreItems (expressionWithin n) bound) used rest es
  | .items es => ∀ {n bound rest}, used.length + 1 < n → used.length < bound →
      Follows .assignment rest → rest.head?.map Token.kind ≠ some (.symbol .comma) →
      Accepts (items (expressionWithin n) bound) used rest es
  | .closed symbol es => ∀ {n bound rest delimiter}, used.length < n → used.length ≤ bound →
      symbol = .closeParen ∨ symbol = .closeBracket →
      Accepts (closedItems (expressionWithin n) bound symbol delimiter) used rest es

theorem Read.expression {used rest : List Token} {e : Expr} {n : Nat}
    (h : Read used (.expr .assignment e)) (enough : used.length + 1 < n)
    (follows : Follows .assignment rest) :
    Accepts (expressionWithin n) used rest e := by
  cases n with
  | zero => omega
  | succ n => exact h (by omega) (by simp only [Layer.bound]; omega) follows

section

variable {t opening closing comma : Token} {first second used : List Token}
  {e left right whole : Expr}
variable {es : List Expr}

private theorem read_literal {value : Literal} (hv : literal? t = some value) :
    Read [t] (.expr .primary (.literal value t.position)) := by
  intro n bound rest _ _ _
  have inside : t.kind ≠ .finish := by intro h; simp [literal?, h] at hv
  apply Accepts.peek_bind (t := t) rfl
  simp only [hv]
  exact (Accepts.advance inside).map rfl

theorem literal?_eq_none {t : Token} (h : t.kind = .name ∨ t.kind = .symbol .openParen ∨
    t.kind = .symbol .openBracket) : literal? t = none := by
  obtain h | h | h := h <;> simp [literal?, h]

private theorem read_name (hk : t.kind = .name) :
    Read [t] (.expr .primary (.name t.lexeme.nameText t.position)) := by
  intro n bound rest _ _ _
  apply Accepts.peek_bind (t := t) rfl
  simp only [literal?_eq_none (.inl hk), hk]
  exact (Accepts.advance (by simp [hk])).map rfl

private theorem read_parens (hk : opening.kind = .symbol .openParen)
    (h : Read first (.expr .assignment e)) (hc : closing.kind = .symbol .closeParen) :
    Read (opening :: first ++ [closing]) (.expr .primary e) := by
  intro n bound rest hn _ _
  simp only [List.length_cons, List.length_append] at hn
  apply Accepts.peek_bind (t := opening) rfl
  simp only [literal?_eq_none (.inr (.inl hk)), hk]
  apply Consumes.bind [opening] (first ++ [closing]) (Accepts.advance (by simp [hk]))
  apply Consumes.bind first [closing] (h.expression (by simp at hn; omega) ?_)
  · exact (Accepts.close hc).map rfl
  · exact ⟨closing, rest, rfl, by rw [hc]; decide⟩

private theorem read_array (hk : opening.kind = .symbol .openBracket)
    (h : Read first (.closed .closeBracket es)) :
    Read (opening :: first) (.expr .primary (.array es opening.position)) := by
  intro n bound rest hn hb _
  simp only [Layer.bound, List.length_cons] at hn hb
  apply Accepts.peek_bind (t := opening) rfl
  simp only [literal?_eq_none (.inr (.inr hk)), hk]
  apply Consumes.bind [opening] first (Accepts.advance (by simp [hk]))
  exact (h (by omega) (by omega) (.inr rfl)).map rfl

private theorem read_call {callee : Expr} (h : Read first (.expr .primary callee))
    (spelled : Spells first (.expr .primary callee)) (k : Read second (.calls callee whole))
    (behind : Spells second (.calls callee whole)) :
    Read (first ++ second) (.expr .call whole) := by
  intro n bound rest hn hb follows
  -- The callee takes a token, which pays for the last round of the calls.
  have length := List.length_pos_iff.mpr spelled.ne_nil
  simp only [Layer.bound, List.length_append] at hn hb
  apply Consumes.bind first second (h (by omega) (by simp only [Layer.bound]; omega) ?_)
  · exact k (by omega) (by omega) (by omega) follows
  · exact behind.follows_calls follows

private theorem read_callsNil : Read [] (.calls whole whole) := by
  intro n outer bound rest _ _ hb follows
  obtain ⟨t, more, rfl, joins⟩ := follows
  cases bound with
  | zero => omega
  | succ bound => exact (Accepts.decline (ne_openParen_of_joins joins)).map rfl

private theorem read_callsCons {callee : Expr} (hk : opening.kind = .symbol .openParen)
    (h : Read first (.closed .closeParen es))
    (k : Read second (.calls (.call callee es opening.position) whole)) :
    Read (opening :: first ++ second) (.calls callee whole) := by
  intro n outer bound rest hn ho hb follows
  simp only [List.length_cons, List.length_append] at hn ho hb
  cases bound with
  | zero => omega
  | succ bound =>
    apply Consumes.bind [opening] (first ++ second) (Accepts.accept hk (by simp))
    apply Consumes.bind first second (h (by omega) (by omega) (.inl rfl))
    exact k (by omega) (by omega) (by omega) follows

private theorem read_plain (h : Read used (.expr .call e)) : Read used (.expr .updated e) := by
  intro n bound rest hn hb follows
  obtain ⟨t, more, rfl, joins⟩ := follows
  apply (h hn hb ⟨t, more, rfl, Nat.lt_of_succ_lt joins⟩).bind_nil
  apply Accepts.peek_bind (t := t) rfl
  simp only [updateOp_of_joins joins]
  exact .pure

private theorem read_update {op : UpdateOp} (h : Read first (.expr .call e))
    (hk : t.kind = .symbol op.symbol) :
    Read (first ++ [t]) (.expr .updated (.update op e false t.position)) := by
  intro n bound rest hn hb _
  simp only [Layer.bound, List.length_append] at hn hb
  apply Consumes.bind first [t] (h (by omega) (by simp only [Layer.bound]; omega) ?_)
  · apply Accepts.peek_bind (t := t) rfl
    simp only [UpdateOp.ofKind?_eq_some.mpr hk]
    exact (Accepts.advance (by simp [hk])).map rfl
  · exact ⟨t, rest, rfl, by rw [hk, joins_update]; decide⟩

private theorem read_unsigned (h : Read used (.expr .updated e))
    (spelled : Spells used (.expr .updated e)) :
    Read used (.expr .unary e) := by
  intro n bound rest hn hb follows
  simp only [Layer.bound] at hb
  obtain ⟨t, more, rfl, start⟩ := spelled.head
  have notSign : UnaryOp.ofKind? t.kind = none := by
    obtain start | ⟨low, -⟩ := start
    · cases hk : t.kind <;> simp_all [opens, UnaryOp.ofKind?]
      split at start <;> simp_all
    · exact absurd low (by decide)
  cases bound with
  | zero => omega
  | succ bound =>
    apply Accepts.peek_bind (t := t) rfl
    simp only [notSign]
    exact h hn (by simp only [Layer.bound]; omega) (follows.mono (by decide))

private theorem read_signed {op : UnaryOp} (hk : t.kind = .symbol op.symbol)
    (h : Read first (.expr .unary e)) :
    Read (t :: first) (.expr .unary (.unary op e t.position)) := by
  intro n bound rest hn hb follows
  simp only [Layer.bound, List.length_cons] at hn hb
  cases bound with
  | zero => omega
  | succ bound =>
    apply Accepts.peek_bind (t := t) rfl
    simp only [UnaryOp.ofKind?_eq_some.mpr hk]
    apply Consumes.bind [t] first (Accepts.advance (by simp [hk]))
    exact (h (by omega) (by simp only [Layer.bound]; omega) follows).map rfl

private theorem read_operand {used : List Token} {e : Expr} (h : Read used (.expr .unary e)) :
    Read used (.expr (.binary 0) e) := by
  intro n bound rest fits enough follows
  exact h fits enough (follows.mono (by decide))

private theorem read_binary {level : Nat} (h : Read first (.expr (.binary level) left))
    (k : Read second (.chain (level + 1) left whole))
    (spelled : Spells first (.expr (.binary level) left))
    (behind : Spells second (.chain (level + 1) left whole)) :
    Read (first ++ second) (.expr (.binary (level + 1)) whole) := by
  intro n bound rest hn hb follows
  have length := List.length_pos_iff.mpr spelled.ne_nil
  simp only [Layer.bound, List.length_append] at hn hb
  apply Consumes.bind first second (h (by omega) (by simp only [Layer.bound]; omega) ?_)
  · exact k (by omega) (by omega) (by omega) follows
  · exact behind.follows_chain follows

private theorem read_chainNil {level : Nat} : Read [] (.chain level whole whole) := by
  intro n outer bound rest _ _ hb follows
  obtain ⟨t, more, rfl, joins⟩ := follows
  cases bound with
  | zero => omega
  | succ bound =>
    apply Accepts.peek_bind (t := t) rfl
    simp only [binaryOp_of_joins joins]
    exact .pure

private theorem read_chainCons {level : Nat} {op : BinaryOp} (hk : t.kind = .symbol op.symbol)
    (hlevel : op.level = level + 1) (h : Read first (.expr (.binary level) right))
    (k : Read second (.chain (level + 1) (.binary left op right t.position) whole))
    (behind : Spells second (.chain (level + 1) (.binary left op right t.position) whole)) :
    Read (t :: first ++ second) (.chain (level + 1) left whole) := by
  intro n outer bound rest hn ho hb follows
  simp only [List.length_cons, List.length_append] at hn ho hb
  have found : (BinaryOp.ofKind? t.kind).filter (·.level = level + 1) = some op := by
    rw [BinaryOp.ofKind?_eq_some.mpr hk]
    simp [hlevel]
  cases bound with
  | zero => omega
  | succ bound =>
    apply Accepts.peek_bind (t := t) rfl
    simp only [found]
    apply Consumes.bind [t] (first ++ second) (Accepts.advance (by simp [hk]))
    apply Consumes.bind first second (h (by omega) (by simp only [Layer.bound]; omega) ?_)
    · exact k (by omega) (by omega) (by omega) follows
    · exact behind.follows_chain follows

private theorem read_value (h : Read used (.expr (.binary 7) e)) :
    Read used (.expr .assignment e) := by
  intro n bound rest hn hb follows
  obtain ⟨t, more, rfl, joins⟩ := follows
  apply (h hn hb ⟨t, more, rfl, Nat.lt_of_succ_lt joins⟩).bind_nil
  apply Accepts.peek_bind (t := t) rfl
  simp only [assignOp_of_joins joins]
  exact .pure

private theorem read_assign {op : AssignOp} (h : Read first (.expr (.binary 7) left))
    (spelled : Spells first (.expr (.binary 7) left)) (hk : t.kind = .symbol op.symbol)
    (k : Read second (.expr .assignment e)) :
    Read (first ++ t :: second) (.expr .assignment (.assign left op e t.position)) := by
  intro n bound rest hn hb follows
  have length := List.length_pos_iff.mpr spelled.ne_nil
  simp only [Layer.bound, List.length_append, List.length_cons] at hn hb
  apply Consumes.bind first (t :: second) (h (by omega) (by simp only [Layer.bound]; omega) ?_)
  · apply Accepts.peek_bind (t := t) rfl
    simp only [AssignOp.ofKind?_eq_some.mpr hk]
    apply Consumes.bind [t] second (Accepts.advance (by simp [hk]))
    exact (k.expression (by omega) follows).map rfl
  · exact ⟨t, _, rfl, by rw [hk, joins_assign]; decide⟩

private theorem read_moreNil : Read [] (.more []) := by
  intro n bound rest _ hb follows other
  obtain ⟨t, more, rfl, -⟩ := follows
  have hk : t.kind ≠ .symbol .comma := by simpa using other
  cases bound with
  | zero => omega
  | succ bound => exact (Accepts.decline hk).map rfl

private theorem read_moreCons (hk : comma.kind = .symbol .comma)
    (h : Read first (.expr .assignment e)) (k : Read second (.more es))
    (behind : Spells second (.more es)) :
    Read (comma :: first ++ second) (.more (e :: es)) := by
  intro n bound rest hn hb follows other
  simp only [List.length_cons, List.length_append] at hn hb
  cases bound with
  | zero => omega
  | succ bound =>
    apply Consumes.bind [comma] (first ++ second) (Accepts.accept hk (by simp))
    apply Consumes.bind first second (h.expression (by omega) (behind.follows_more follows))
    exact (k (by omega) (by omega) follows other).map rfl

private theorem read_items (h : Read first (.expr .assignment e))
    (spelled : Spells first (.expr .assignment e)) (k : Read second (.more es))
    (behind : Spells second (.more es)) : Read (first ++ second) (.items (e :: es)) := by
  intro n bound rest hn hb follows other
  have length := List.length_pos_iff.mpr spelled.ne_nil
  simp only [List.length_append] at hn hb
  apply Consumes.bind first second (h.expression (by omega) (behind.follows_more follows))
  exact (k (by omega) (by omega) follows other).map rfl

private theorem read_closedNil {symbol : Symbol} (hk : closing.kind = .symbol symbol) :
    Read [closing] (.closed symbol []) := by
  intro n bound rest delimiter _ _ _
  exact (Accepts.accept hk (by simp)).map rfl

private theorem read_closedItems {symbol : Symbol} (h : Read first (.items es))
    (spelled : Spells first (.items es)) (hk : closing.kind = .symbol symbol) :
    Read (first ++ [closing]) (.closed symbol es) := by
  intro n bound rest delimiter hn hb closer
  simp only [List.length_append, List.length_singleton] at hn hb
  obtain ⟨t, more, rfl, start⟩ := spelled.head_items
  -- An item never starts with what closes the list, so the list is not taken for an empty one.
  have other : t.kind ≠ .symbol symbol := by
    obtain rfl | rfl := closer <;> intro same <;> rw [same] at start <;> revert start <;> decide
  have follows : Follows .assignment (closing :: rest) :=
    ⟨closing, rest, rfl, by rw [hk]; obtain rfl | rfl := closer <;> decide⟩
  have behind : (closing :: rest).head?.map Token.kind ≠ some (.symbol .comma) := by
    rw [List.head?_cons, Option.map_some, hk]
    obtain rfl | rfl := closer <;> simp
  apply Consumes.bind [] (t :: more ++ [closing]) (Accepts.decline other)
  apply Consumes.bind (t :: more) [closing] (h (by omega) (by omega) follows behind)
  exact (Accepts.close hk).map rfl

end

theorem Spells.read {used : List Token} {phrase : Phrase} (h : Spells used phrase) :
    Read used phrase := by
  induction h with
  | literal hv => exact read_literal hv
  | name hk => exact read_name hk
  | parens hk _ hc ih => exact read_parens hk ih hc
  | array hk _ ih => exact read_array hk ih
  | call spelled behind ih ih' => exact read_call ih spelled ih' behind
  | callsNil => exact read_callsNil
  | callsCons hk _ _ ih ih' => exact read_callsCons hk ih ih'
  | plain _ ih => exact read_plain ih
  | update _ hk ih => exact read_update ih hk
  | unsigned spelled ih => exact read_unsigned ih spelled
  | signed hk _ ih => exact read_signed hk ih
  | operand _ ih => exact read_operand ih
  | binary spelled behind ih ih' => exact read_binary ih ih' spelled behind
  | chainNil => exact read_chainNil
  | chainCons hk hlevel _ behind ih ih' => exact read_chainCons hk hlevel ih ih' behind
  | value _ ih => exact read_value ih
  | assign spelled hk _ ih ih' => exact read_assign ih spelled hk ih'
  | moreNil => exact read_moreNil
  | moreCons hk _ behind ih ih' => exact read_moreCons hk ih ih' behind
  | items spelled behind ih ih' => exact read_items ih spelled ih' behind
  | closedNil hk => exact read_closedNil hk
  | closedItems spelled hk ih => exact read_closedItems ih spelled hk

end Grammar

end DaiScript
