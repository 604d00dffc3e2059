import DaiScript.Proofs.Lines
import DaiScript.Proofs.Parsings
import DaiScript.Proofs.Transport

/-! Reading two lists of tokens side by side. Readings look at tokens one at a time and never tell a
line break from the end, so they do the same on lists that show them the same tokens, up to places,
wherever they get. Expressions do not even pass a semicolon or a brace, so behind one of these the
lists may differ. -/
namespace DaiScript

def Kind.isIdle : Kind → Bool
  | .newline | .finish => true
  | _ => false

theorem kind_of_isIdle {kind : Kind} (h : kind.isIdle = true) :
    kind = .newline ∨ kind = .finish := by
  unfold Kind.isIdle at h
  split at h
  · exact .inl rfl
  · exact .inr rfl
  · cases h

theorem isIdle_iff {kind : Kind} : kind.isIdle = true ↔ kind = .newline ∨ kind = .finish :=
  ⟨kind_of_isIdle, by rintro (rfl | rfl) <;> rfl⟩

theorem isIdle_finish : Kind.isIdle .finish = true := rfl

theorem isIdle_of_ne {kind : Kind} (h : kind ≠ .newline) (k : kind ≠ .finish) :
    kind.isIdle = false := by
  unfold Kind.isIdle
  split
  · contradiction
  · contradiction
  · rfl

def Kind.isBrace : Kind → Bool
  | .symbol .openBrace | .symbol .closeBrace => true
  | _ => false

def Kind.isInner : Kind → Bool
  | .number | .text | .name => true
  | .keyword k =>
    match k with
    | .thik | .galat | .khali => true
    | _ => false
  | .symbol s =>
    match s with
    | .semicolon | .dot | .colon | .openBrace | .closeBrace => false
    | _ => true
  | .newline | .finish => false

theorem isInner_of_isIdle {kind : Kind} (idle : kind.isIdle = true) : kind.isInner = false := by
  obtain rfl | rfl := kind_of_isIdle idle <;> rfl

section

variable {t : Token} (outer : t.kind.isInner = false)
include outer

theorem literal?_of_outer : Grammar.literal? t = none := by
  unfold Grammar.literal?
  split <;> simp_all [Kind.isInner]

theorem updateOp_of_outer : UpdateOp.ofKind? t.kind = none := by
  unfold UpdateOp.ofKind?
  split <;> simp_all [Kind.isInner]

theorem unaryOp_of_outer : UnaryOp.ofKind? t.kind = none := by
  unfold UnaryOp.ofKind?
  split <;> simp_all [Kind.isInner]

theorem binaryOp_of_outer : BinaryOp.ofKind? t.kind = none := by
  unfold BinaryOp.ofKind?
  split <;> simp_all [Kind.isInner]

theorem assignOp_of_outer : AssignOp.ofKind? t.kind = none := by
  unfold AssignOp.ofKind?
  split <;> simp_all [Kind.isInner]

end

section

variable (move : Position → Position) (t : Token)

@[simp] theorem Token.kind_moved : (t.moved move).kind = t.kind := rfl

private theorem Grammar.literal?_moved : literal? (t.moved move) = literal? t := rfl

end

/-- When one reading follows another: which cursors correspond, which errors do, and which outcomes
of the first need no counterpart. -/
structure Tracking where
  move : Position → Position
  cursors : Cursor → Cursor → Prop
  error : SyntaxError → SyntaxError → Prop
  excused : Option SyntaxError → Prop
  /-- The kinds of tokens that are not passed, and whose tokens need not be the same. -/
  mute : Kind → Bool
  outer : ∀ {kind}, mute kind = true → kind.isInner = false
  ended : mute .finish = true
  grounded : ∀ {c d}, cursors c d → c.Grounded ∧ d.Grounded
  idle : ∀ {c d}, cursors c d → mute c.peek.kind = true → mute d.peek.kind = true
  solid : ∀ {c d}, cursors c d → mute c.peek.kind = false → d.peek = c.peek.moved move
  advance : ∀ {c d}, cursors c d → mute c.peek.kind = false → cursors c.advance d.advance
  reject : ∀ {c d} (cause : String → SyntaxCause), cursors c d →
    excused (some ⟨cause c.peek.describe, c.peek.position⟩) ∨
      error ⟨cause c.peek.describe, c.peek.position⟩ ⟨cause d.peek.describe, d.peek.position⟩
  reach : ∀ {c d}, cursors c d → Lasts (excused none) c.reach d.reach

namespace Tracking

open Reading Grammar

variable (T : Tracking)

def readings : Correspondence SyntaxError Cursor := ⟨T.cursors, T.error, T.excused⟩

def expr (e e' : Expr) : Prop := e' = e.transport id T.move

def exprs (es es' : List Expr) : Prop := es' = Expr.transportAll id T.move es

variable {T}

/-! ### Single steps -/

section

variable {c d : Cursor} {value : α → β → Prop}

theorem mute_of_inner {kind : Kind} (inner : kind.isInner = true) : T.mute kind = false := by
  cases mute : T.mute kind with
  | false => rfl
  | true => rw [T.outer mute] at inner; contradiction

theorem kind_eq (h : T.cursors c d) (solid : T.mute c.peek.kind = false) :
    d.peek.kind = c.peek.kind := by
  rw [T.solid h solid]
  rfl

theorem kind_eq_iff (h : T.cursors c d) {kind : Kind} (solid : T.mute kind = false) :
    d.peek.kind = kind ↔ c.peek.kind = kind := by
  cases idle : T.mute c.peek.kind with
  | false => rw [kind_eq h idle]
  | true =>
    have idle' := T.idle h idle
    constructor <;> (rintro rfl; simp_all)

def OnToken (T : Tracking) (value : α → β → Prop) (p : Reading α) (q : Reading β) : Prop :=
  ∀ ⦃c d⦄, T.cursors c d → T.mute c.peek.kind = false → Outcome.Matches T.readings value (p c) (q d)

theorem onToken {p : Reading α} {q : Reading β} (h : Process.Matches T.readings value p q) :
    T.OnToken value p q :=
  fun _ _ related _ => h related

theorem advance_bind {next : Unit → Reading α} {next' : Unit → Reading β}
    (h : Process.Matches T.readings value (next ()) (next' ())) :
    T.OnToken value (Reading.advance >>= next) (Reading.advance >>= next') :=
  fun _ _ related solid => h (T.advance related solid)

/-- Either both readings look at a token that shows nothing, or the second looks at the token of the
first. -/
theorem peek_bind {next : Token → Reading α} {next' : Token → Reading β}
    (idle : ∀ t t', T.mute t.kind = true → T.mute t'.kind = true →
      Process.Matches T.readings value (next t) (next' t'))
    (solid : ∀ t, T.OnToken value (next t) (next' (t.moved T.move))) :
    Process.Matches T.readings value (peek >>= next) (peek >>= next') := by
  intro c d related
  change Outcome.Matches T.readings value (next c.peek c) (next' d.peek d)
  cases kind : T.mute c.peek.kind with
  | true => exact idle _ _ kind (T.idle related kind) related
  | false =>
    rw [T.solid related kind]
    exact solid _ related kind

theorem reject_matches (cause : String → SyntaxCause) :
    Process.Matches T.readings value (Reading.reject cause : Reading α)
      (Reading.reject cause : Reading β) := by
  intro c d h
  obtain excused | error := T.reject cause h
  · exact .excusedFailed excused
  · exact .failed error h

theorem accept?_matches {kind : Kind} (solid : T.mute kind = false) :
    Process.Matches T.readings (fun o o' => o' = o.map (Token.moved T.move)) (accept? kind)
      (accept? kind) := by
  intro c d h
  have inside : kind ≠ .finish := by
    rintro rfl
    rw [T.ended] at solid
    contradiction
  obtain ⟨hc, hd⟩ := T.grounded h
  rw [accept?_eq hc inside, accept?_eq hd inside]
  by_cases hk : c.peek.kind = kind
  · have solid' : T.mute c.peek.kind = false := hk ▸ solid
    rw [if_pos hk, if_pos ((kind_eq_iff h solid).mpr hk), T.solid h solid']
    exact .done rfl (T.advance h solid')
  · rw [if_neg hk, if_neg (mt (kind_eq_iff h solid).mp hk)]
    exact .done rfl h

theorem expect_matches {kind : Kind} (solid : T.mute kind = false) :
    Process.Matches T.readings (fun t t' => t' = t.moved T.move) (expect kind) (expect kind) := by
  apply (accept?_matches solid).bind
  rintro token _ rfl
  cases token with
  | some token => exact .pure rfl
  | none => exact reject_matches _

theorem close_matches {symbol : Symbol} (solid : T.mute (.symbol symbol) = false)
    (delimiter : Char) :
    Process.Matches T.readings Eq (close symbol delimiter) (close symbol delimiter) := by
  apply (accept?_matches solid).bind
  rintro token _ rfl
  cases token with
  | some token => exact .pure rfl
  | none => exact reject_matches _

end

/-! ### Expressions -/

section

variable {item item' : Reading Expr} (h : Process.Matches T.readings T.expr item item')
include h

private theorem moreItems_matches {n m : Nat} (lasts : Lasts (T.excused none) n m) :
    Process.Matches T.readings T.exprs (moreItems item n) (moreItems item' m) := by
  induction lasts with
  | zero => exact .endless
  | short impatient => exact .excused impatient _
  | succ _ ih =>
    apply (accept?_matches (mute_of_inner rfl)).bind
    rintro comma _ rfl
    cases comma with
    | none => exact .pure rfl
    | some comma =>
      apply h.bind
      rintro e _ rfl
      apply ih.bind
      rintro es _ rfl
      exact .pure rfl

theorem items_matches {n m : Nat} (lasts : Lasts (T.excused none) n m) :
    Process.Matches T.readings T.exprs (items item n) (items item' m) := by
  apply h.bind
  rintro e _ rfl
  apply (moreItems_matches h lasts).bind
  rintro es _ rfl
  exact .pure rfl

theorem closedItems_matches {n m : Nat} (lasts : Lasts (T.excused none) n m) {symbol : Symbol}
    (inner : (Kind.symbol symbol).isInner = true) (delimiter : Char) :
    Process.Matches T.readings T.exprs (closedItems item n symbol delimiter)
      (closedItems item' m symbol delimiter) := by
  apply (accept?_matches (mute_of_inner inner)).bind
  rintro closing _ rfl
  cases closing with
  | some closing => exact .pure rfl
  | none =>
    apply (items_matches h lasts).bind
    rintro es _ rfl
    apply (close_matches (mute_of_inner inner) delimiter).bind_same
    intro _
    exact .pure rfl

private theorem primary_matches {n m : Nat} (lasts : Lasts (T.excused none) n m) :
    Process.Matches T.readings T.expr (primary item n) (primary item' m) := by
  apply peek_bind
  · intro t t' idle idle'
    have outer := T.outer idle
    have outer' := T.outer idle'
    rw [literal?_of_outer outer, literal?_of_outer outer']
    dsimp only
    split
    · simp_all [Kind.isInner]
    · simp_all [Kind.isInner]
    · simp_all [Kind.isInner]
    · split
      · simp_all [Kind.isInner]
      · simp_all [Kind.isInner]
      · simp_all [Kind.isInner]
      · exact reject_matches _
  · intro t
    rw [literal?_moved]
    cases literal? t with
    | some value => exact advance_bind (.pure rfl)
    | none =>
      simp only [Token.kind_moved]
      split
      · exact advance_bind (.pure rfl)
      · apply advance_bind
        apply h.bind
        rintro e _ rfl
        apply (close_matches (mute_of_inner rfl) _).bind_same
        intro _
        exact .pure rfl
      · apply advance_bind
        apply (closedItems_matches h lasts rfl _).bind
        rintro es _ rfl
        exact .pure rfl
      · exact onToken (reject_matches _)

private theorem calls_matches {outer outer' : Nat} (inner : Lasts (T.excused none) outer outer')
    {n m : Nat} (lasts : Lasts (T.excused none) n m) (callee : Expr) :
    Process.Matches T.readings T.expr (calls item outer n callee)
      (calls item' outer' m (callee.transport id T.move)) := by
  induction lasts generalizing callee with
  | zero => exact .endless
  | short impatient => exact .excused impatient _
  | succ _ ih =>
    apply (accept?_matches (mute_of_inner rfl)).bind
    rintro paren _ rfl
    cases paren with
    | none => exact .pure rfl
    | some paren =>
      apply (closedItems_matches h inner rfl _).bind
      rintro es _ rfl
      exact ih (.call callee es paren.position)

private theorem call_matches {n m : Nat} (lasts : Lasts (T.excused none) n m) :
    Process.Matches T.readings T.expr (call item n) (call item' m) := by
  apply (primary_matches h lasts).bind
  rintro callee _ rfl
  exact calls_matches h lasts lasts callee

private theorem updated_matches {n m : Nat} (lasts : Lasts (T.excused none) n m) :
    Process.Matches T.readings T.expr (updated item n) (updated item' m) := by
  apply (call_matches h lasts).bind
  rintro target _ rfl
  apply peek_bind
  · intro t t' idle idle'
    rw [updateOp_of_outer (T.outer idle), updateOp_of_outer (T.outer idle')]
    exact .pure rfl
  · intro t
    rw [Token.kind_moved]
    cases UpdateOp.ofKind? t.kind with
    | none => exact onToken (.pure rfl)
    | some op => exact advance_bind (.pure rfl)

private theorem unary_matches {n m : Nat} (lasts : Lasts (T.excused none) n m) :
    Process.Matches T.readings T.expr (unary item n) (unary item' m) := by
  induction lasts with
  | zero => exact .endless
  | short impatient => exact .excused impatient _
  | succ lasts ih =>
    have operand := updated_matches h lasts
    apply peek_bind
    · intro t t' idle idle'
      rw [unaryOp_of_outer (T.outer idle), unaryOp_of_outer (T.outer idle')]
      exact operand
    · intro t
      rw [Token.kind_moved]
      cases UnaryOp.ofKind? t.kind with
      | none => exact onToken operand
      | some op =>
        apply advance_bind
        apply ih.bind
        rintro e _ rfl
        exact .pure rfl

omit h in
private theorem chain_matches {level : Nat} {operand operand' : Reading Expr}
    (h : Process.Matches T.readings T.expr operand operand') {n m : Nat}
    (lasts : Lasts (T.excused none) n m) (left : Expr) :
    Process.Matches T.readings T.expr (chain level operand n left)
      (chain level operand' m (left.transport id T.move)) := by
  induction lasts generalizing left with
  | zero => exact .endless
  | short impatient => exact .excused impatient _
  | succ _ ih =>
    apply peek_bind
    · intro t t' idle idle'
      rw [binaryOp_of_outer (T.outer idle), binaryOp_of_outer (T.outer idle')]
      exact .pure rfl
    · intro t
      rw [Token.kind_moved]
      cases (BinaryOp.ofKind? t.kind).filter (·.level = level) with
      | none => exact onToken (.pure rfl)
      | some op =>
        apply advance_bind
        apply h.bind
        rintro right _ rfl
        exact ih (.binary left op right t.position)

private theorem binary_matches {n m : Nat} (lasts : Lasts (T.excused none) n m) (level : Nat) :
    Process.Matches T.readings T.expr (binary item n level) (binary item' m level) := by
  induction level with
  | zero => exact unary_matches h lasts
  | succ level ih =>
    apply ih.bind
    rintro left _ rfl
    exact chain_matches ih lasts left

private theorem assignment_matches {n m : Nat} (lasts : Lasts (T.excused none) n m) :
    Process.Matches T.readings T.expr (assignment item n) (assignment item' m) := by
  apply (binary_matches h lasts 7).bind
  rintro target _ rfl
  apply peek_bind
  · intro t t' idle idle'
    rw [assignOp_of_outer (T.outer idle), assignOp_of_outer (T.outer idle')]
    exact .pure rfl
  · intro t
    rw [Token.kind_moved]
    cases AssignOp.ofKind? t.kind with
    | none => exact onToken (.pure rfl)
    | some op =>
      apply advance_bind
      apply h.bind
      rintro value _ rfl
      exact .pure rfl

end

theorem expressionWithin_matches {n m : Nat} (lasts : Lasts (T.excused none) n m) :
    Process.Matches T.readings T.expr (expressionWithin n) (expressionWithin m) := by
  induction lasts with
  | zero => exact .endless
  | short impatient => exact .excused impatient _
  | succ lasts ih => exact assignment_matches ih lasts

theorem expression_matches : Process.Matches T.readings T.expr expression expression := by
  intro c d related
  exact expressionWithin_matches (T.reach related) related

theorem layer_items_matches :
    Process.Matches T.readings T.exprs (layer items) (layer items) := by
  intro c d related
  have lasts := T.reach related
  exact items_matches (expressionWithin_matches lasts) lasts related

end Tracking

end DaiScript
