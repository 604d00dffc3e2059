import DaiScript.Proofs.Phrase
import DaiScript.Text.Quoted

/-! How programs are written as tokens. Parentheses stand only where the grammar would otherwise
read another tree. Every place that a tree keeps goes to the token that it is the place of; all
other tokens are put at `gap`. -/
namespace DaiScript

open Grammar (Layer)

/-- The layer of an expression that stands without parentheses. -/
def Expr.layer : Expr → Layer
  | .binary _ op _ _ => .binary op.level
  | .unary .. => .unary
  | .update .. => .updated
  | .assign .. => .assignment
  | .call .. => .call
  | .literal .. | .name .. | .array .. => .primary

def Literal.lexeme : Literal → Lexeme
  | .number n => ⟨.number, some (.number n), Layout.plain.render n⟩
  | .text s => ⟨.text, some (.text s), String.ofList ('"' :: Text.Quoted.encode s.toList ++ ['"'])⟩
  | .bool true => .keyword .thik
  | .bool false => .keyword .galat
  | .null => .keyword .khali

def Lexeme.name (text : String) : Lexeme := ⟨.name, some (.name text), text⟩

/-- The tokens of an expression, in parentheses if it binds more loosely than `required`. -/
def Expr.fenced (gap : Position) (required : Layer) (e : Expr) (tokens : List Token) : List Token :=
  if e.layer.rank ≤ required.rank then tokens
  else ⟨.symbol .openParen, gap⟩ :: tokens ++ [⟨.symbol .closeParen, gap⟩]

mutual

def Expr.tokens (gap : Position) : Expr → List Token
  | .binary left op right position =>
    left.fenced gap (.binary op.level) (left.tokens gap) ++
      ⟨.symbol op.symbol, position⟩ :: right.fenced gap (.binary (op.level - 1)) (right.tokens gap)
  | .unary op operand position =>
    ⟨.symbol op.symbol, position⟩ :: operand.fenced gap .unary (operand.tokens gap)
  | .update op target before position =>
    let written := target.fenced gap .call (target.tokens gap)
    if before then ⟨.symbol op.symbol, position⟩ :: written
    else written ++ [⟨.symbol op.symbol, position⟩]
  | .assign target op value position =>
    target.fenced gap (.binary 7) (target.tokens gap) ++
      ⟨.symbol op.symbol, position⟩ :: value.tokens gap
  | .call callee arguments position =>
    callee.fenced gap .call (callee.tokens gap) ++
      ⟨.symbol .openParen, position⟩ :: Expr.itemTokens gap arguments ++
      [⟨.symbol .closeParen, gap⟩]
  | .literal value position => [⟨value.lexeme, position⟩]
  | .name text position => [⟨.name text, position⟩]
  | .array items position =>
    ⟨.symbol .openBracket, position⟩ :: Expr.itemTokens gap items ++ [⟨.symbol .closeBracket, gap⟩]

def Expr.itemTokens (gap : Position) : List Expr → List Token
  | [] => []
  | e :: es => e.tokens gap ++ Expr.moreTokens gap es

def Expr.moreTokens (gap : Position) : List Expr → List Token
  | [] => []
  | e :: es => ⟨.symbol .comma, gap⟩ :: e.tokens gap ++ Expr.moreTokens gap es

end

mutual

def Stmt.tokens (gap : Position) : Stmt → List Token
  | .declare name none position =>
    [⟨.keyword .solti, position⟩, ⟨.name name, gap⟩, ⟨.symbol .semicolon, gap⟩]
  | .declare name (some value) position =>
    ⟨.keyword .solti, position⟩ :: ⟨.name name, gap⟩ :: ⟨.symbol .assign, gap⟩ ::
      value.tokens gap ++ [⟨.symbol .semicolon, gap⟩]
  | .expr e => e.tokens gap ++ [⟨.symbol .semicolon, gap⟩]
  | .print arguments position =>
    ⟨.keyword .lekh, position⟩ :: Expr.itemTokens gap arguments ++ [⟨.symbol .semicolon, gap⟩]
  | .branch test consequent alternate =>
    ⟨.keyword .yadi, gap⟩ :: test.tokens gap ++ ⟨.keyword .bhane, gap⟩ :: consequent.tokens gap ++
      Stmt.elseTokens gap alternate
  | .loop test body =>
    ⟨.keyword .jabaSamma, gap⟩ :: test.tokens gap ++ ⟨.newline, gap⟩ :: body.tokens gap
  | .block body =>
    ⟨.symbol .openBrace, gap⟩ :: Stmt.sequenceTokens gap body ++ [⟨.symbol .closeBrace, gap⟩]
  | .leave position => [⟨.keyword .vaiVayoRokki, position⟩, ⟨.symbol .semicolon, gap⟩]
  | .next position => [⟨.keyword .aghiBadhVai, position⟩, ⟨.symbol .semicolon, gap⟩]

def Stmt.elseTokens (gap : Position) : Option Stmt → List Token
  | none => []
  | some alternate => ⟨.keyword .natra, gap⟩ :: alternate.tokens gap

def Stmt.sequenceTokens (gap : Position) : List Stmt → List Token
  | [] => []
  | s :: body => s.tokens gap ++ Stmt.sequenceTokens gap body

end

def Program.tokens (gap : Position) (program : Program) : List Token :=
  Stmt.sequenceTokens gap program

/-! ### The trees that tokens can spell -/

mutual

def Expr.regular : Expr → Bool
  | .binary left _ right _ => left.regular && right.regular
  | .unary _ operand _ => operand.regular
  | .update _ target before _ => !before && target.regular
  | .assign target _ value _ => target.regular && value.regular
  | .call callee arguments _ => callee.regular && Expr.allRegular arguments
  | .literal .. | .name .. => true
  | .array items _ => Expr.allRegular items

def Expr.allRegular : List Expr → Bool
  | [] => true
  | e :: es => e.regular && Expr.allRegular es

end

mutual

/-- Whether `natra` behind the statement would become a part of it. -/
def Stmt.dangling : Stmt → Bool
  | .branch _ _ alternate => Stmt.danglingElse alternate
  | .loop _ body => body.dangling
  | _ => false

def Stmt.danglingElse : Option Stmt → Bool
  | none => true
  | some alternate => alternate.dangling

end

mutual

/-- All expressions are regular, and no `natra` would have become a part of the consequent in front
of it. -/
def Stmt.regular : Stmt → Bool
  | .declare _ value _ => value.all Expr.regular
  | .expr e => e.regular
  | .print arguments _ => Expr.allRegular arguments
  | .branch test consequent alternate =>
    test.regular && consequent.regular && (alternate.isNone || !consequent.dangling) &&
      Stmt.regularElse alternate
  | .loop test body => test.regular && body.regular
  | .block body => Stmt.allRegular body
  | .leave _ | .next _ => true

def Stmt.regularElse : Option Stmt → Bool
  | none => true
  | some alternate => alternate.regular

def Stmt.allRegular : List Stmt → Bool
  | [] => true
  | s :: body => s.regular && Stmt.allRegular body

end

def Program.regular (program : Program) : Bool :=
  Stmt.allRegular program

/-! ### Printed expressions -/

namespace Grammar

def Layer.proper : Layer → Bool
  | .binary level => level ≤ 7
  | _ => true

private theorem Layer.eq_of_rank_eq {l m : Layer} (hl : l.proper = true) (hm : m.proper = true)
    (same : l.rank = m.rank) : l = m := by
  cases l <;> cases m <;> simp_all [Layer.rank, Layer.proper] <;> omega

theorem Layer.rank_le {l : Layer} (hl : l.proper = true) : l.rank ≤ rank .assignment := by
  cases l with
  | binary level =>
    simp only [Layer.proper, decide_eq_true_eq] at hl
    simp only [Layer.rank]
    omega
  | _ => decide

theorem Spells.loosen {used : List Token} {e : Expr} {l m : Layer} (h : Spells used (.expr l e))
    (hl : l.proper = true) (hm : m.proper = true) (le : l.rank ≤ m.rank) :
    Spells used (.expr m e) := by
  induction gap : m.rank - l.rank generalizing m with
  | zero =>
    rw [← Layer.eq_of_rank_eq hl hm (by omega)]
    exact h
  | succ n ih =>
    have next : ∀ tighter : Layer, tighter.proper = true → tighter.rank + 1 = m.rank →
        Spells used (.expr tighter e) :=
      fun tighter proper step => ih proper (by omega) (by omega)
    cases m with
    | primary => exact absurd gap (by simp [Layer.rank])
    | call =>
      have whole := Spells.call (next .primary rfl rfl) .callsNil
      rwa [List.append_nil] at whole
    | updated => exact .plain (next .call rfl rfl)
    | unary => exact .unsigned (next .updated rfl rfl)
    | assignment => exact .value (next (.binary 7) rfl rfl)
    | binary level =>
      cases level with
      | zero => exact .operand (next .unary rfl rfl)
      | succ level =>
        have proper : (Layer.binary level).proper = true := by
          simp only [Layer.proper, decide_eq_true_eq] at *
          omega
        have whole := Spells.binary (next (.binary level) proper rfl) .chainNil
        rwa [List.append_nil] at whole

private theorem Spells.chain_snoc {used first : List Token} {t : Token} {level : Nat}
    {start left right : Expr} {op : BinaryOp} (h : Spells used (.chain (level + 1) start left))
    (hk : t.kind = .symbol op.symbol) (hlevel : op.level = level + 1)
    (behind : Spells first (.expr (.binary level) right)) :
    Spells (used ++ t :: first) (.chain (level + 1) start (.binary left op right t.position)) := by
  generalize hp : Phrase.chain (level + 1) start left = phrase at h
  induction h generalizing start with
  | chainNil =>
    cases hp
    have last : Spells (t :: first ++ []) (.chain _ left (.binary left op right t.position)) :=
      .chainCons hk hlevel behind .chainNil
    rwa [List.append_nil] at last
  | chainCons hk' hlevel' operand _ _ ih =>
    cases hp
    have whole := Spells.chainCons hk' hlevel' operand (ih rfl)
    rwa [List.append_assoc]
  | _ => cases hp

private theorem Spells.calls_snoc {used first : List Token} {opening : Token} {start callee : Expr}
    {arguments : List Expr} (h : Spells used (.calls start callee))
    (hk : opening.kind = .symbol .openParen)
    (behind : Spells first (.closed .closeParen arguments)) :
    Spells (used ++ opening :: first) (.calls start (.call callee arguments opening.position)) := by
  generalize hp : Phrase.calls start callee = phrase at h
  induction h generalizing start with
  | callsNil =>
    cases hp
    have last : Spells (opening :: first ++ [])
        (.calls callee (.call callee arguments opening.position)) :=
      .callsCons hk behind .callsNil
    rwa [List.append_nil] at last
  | callsCons hk' inner _ _ ih =>
    cases hp
    have whole := Spells.callsCons hk' inner (ih rfl)
    rwa [List.append_assoc]
  | _ => cases hp

end Grammar

open Grammar (Spells)

theorem Expr.proper_layer (e : Expr) : e.layer.proper = true := by
  cases e with
  | binary _ op _ _ => cases op <;> rfl
  | _ => rfl

theorem BinaryOp.exists_level (op : BinaryOp) : ∃ level, op.level = level + 1 ∧ level ≤ 6 := by
  cases op <;> exact ⟨_, rfl, by decide⟩

private theorem Literal.literal?_lexeme (value : Literal) (position : Position) :
    Grammar.literal? ⟨value.lexeme, position⟩ = some value := by
  cases value with
  | bool b => cases b <;> rfl
  | _ => rfl

section

variable {gap : Position}

theorem Expr.spells_assignment {used : List Token} {e : Expr} (h : Spells used (.expr e.layer e)) :
    Spells used (.expr .assignment e) :=
  h.loosen e.proper_layer rfl (Layer.rank_le e.proper_layer)

theorem Expr.spells_fenced {e : Expr} (required : Layer) (hr : required.proper = true)
    (h : Spells (e.tokens gap) (.expr e.layer e)) :
    Spells (e.fenced gap required (e.tokens gap)) (.expr required e) := by
  unfold Expr.fenced
  split
  · next le => exact h.loosen e.proper_layer hr le
  · next loose =>
    have inner := Expr.spells_assignment h
    exact (Spells.parens rfl inner rfl).loosen rfl hr (Nat.zero_le _)

private theorem Expr.spells_binary {left right : Expr} {op : BinaryOp} {position : Position}
    (h : Spells (left.tokens gap) (.expr left.layer left))
    (k : Spells (right.tokens gap) (.expr right.layer right)) :
    Spells ((Expr.binary left op right position).tokens gap)
      (.expr (.binary op.level) (.binary left op right position)) := by
  obtain ⟨level, hlevel, small⟩ := op.exists_level
  have first := Expr.spells_fenced (.binary op.level) (by simp [Layer.proper]; omega) h
  have second := Expr.spells_fenced (.binary (op.level - 1)) (by simp [Layer.proper]; omega) k
  rw [Expr.tokens]
  generalize left.fenced _ _ _ = used at *
  rw [hlevel] at first second ⊢
  cases first with
  | binary operand chain =>
    -- Levels group to the left: the operator goes behind the chain of its left operand.
    have whole := Spells.binary operand
      (chain.chain_snoc (t := ⟨.symbol op.symbol, position⟩) rfl hlevel second)
    rwa [List.append_assoc]

private theorem Expr.spells_call {callee : Expr} {arguments : List Expr} {position : Position}
    (h : Spells (callee.tokens gap) (.expr callee.layer callee))
    (k : Spells (Expr.itemTokens gap arguments ++ [⟨.symbol .closeParen, gap⟩])
      (.closed .closeParen arguments)) :
    Spells ((Expr.call callee arguments position).tokens gap)
      (.expr .call (.call callee arguments position)) := by
  have first := Expr.spells_fenced .call rfl h
  rw [Expr.tokens]
  generalize callee.fenced _ _ _ = used at *
  cases first with
  | call target chain =>
    have paren : (⟨.symbol .openParen, position⟩ : Token).kind = .symbol .openParen := rfl
    simpa using Spells.call target (chain.calls_snoc paren k)

mutual

theorem Expr.spells_tokens (e : Expr) (regular : e.regular = true) :
    Spells (e.tokens gap) (.expr e.layer e) := by
  cases e with
  | binary left op right position =>
    simp only [Expr.regular, Bool.and_eq_true] at regular
    exact Expr.spells_binary (left.spells_tokens regular.1) (right.spells_tokens regular.2)
  | unary op operand position =>
    rw [Expr.tokens]
    exact .signed rfl (Expr.spells_fenced .unary rfl (operand.spells_tokens regular))
  | update op target before position =>
    simp only [Expr.regular, Bool.and_eq_true, Bool.not_eq_true'] at regular
    obtain ⟨rfl, regular⟩ := regular
    have first := Expr.spells_fenced .call rfl (target.spells_tokens regular)
    exact .update (t := ⟨.symbol op.symbol, position⟩) first rfl
  | assign target op value position =>
    simp only [Expr.regular, Bool.and_eq_true] at regular
    have first := Expr.spells_fenced (.binary 7) rfl (target.spells_tokens regular.1)
    exact .assign (t := ⟨.symbol op.symbol, position⟩) first rfl
      (Expr.spells_assignment (value.spells_tokens regular.2))
  | call callee arguments position =>
    simp only [Expr.regular, Bool.and_eq_true] at regular
    exact Expr.spells_call (callee.spells_tokens regular.1)
      (Expr.spells_itemTokens arguments regular.2 _ _ rfl)
  | literal value position =>
    exact .literal (t := ⟨value.lexeme, position⟩) (value.literal?_lexeme _)
  | name text position => exact .name (t := ⟨.name text, position⟩) rfl
  | array items position =>
    rw [Expr.tokens]
    exact .array rfl (Expr.spells_itemTokens items regular _ _ rfl)

theorem Expr.spells_itemTokens (es : List Expr) (regular : Expr.allRegular es = true)
    (closing : Token) (symbol : Symbol) (hk : closing.kind = .symbol symbol) :
    Spells (Expr.itemTokens gap es ++ [closing]) (.closed symbol es) := by
  cases es with
  | nil => exact .closedNil hk
  | cons e es =>
    simp only [Expr.allRegular, Bool.and_eq_true] at regular
    have first := Expr.spells_assignment (e.spells_tokens regular.1)
    exact .closedItems (.items first (Expr.spells_moreTokens es regular.2)) hk

theorem Expr.spells_moreTokens (es : List Expr) (regular : Expr.allRegular es = true) :
    Spells (Expr.moreTokens gap es) (.more es) := by
  cases es with
  | nil => exact .moreNil
  | cons e es =>
    simp only [Expr.allRegular, Bool.and_eq_true] at regular
    have first := Expr.spells_assignment (e.spells_tokens regular.1)
    exact .moreCons rfl first (Expr.spells_moreTokens es regular.2)

end

end

end DaiScript
