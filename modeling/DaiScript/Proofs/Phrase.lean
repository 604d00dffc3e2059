import DaiScript.Grammar.Statement

/-! The grammar of the language, as a relation between tokens and trees. It has no cursor and no
lookahead: a rule says only which tokens stand where. Line breaks are tokens of their own, and the
rules allow them in front of a statement, of `natra`, of a closing brace and at the end. -/
namespace DaiScript.Grammar

inductive Layer where
  | primary
  | call
  | updated
  | unary
  | binary (level : Nat)
  | assignment
  deriving DecidableEq, Repr

def Layer.rank : Layer → Nat
  | primary => 0
  | call => 1
  | updated => 2
  | unary => 3
  | binary level => 4 + level
  | assignment => 12

inductive Phrase where
  | expr (layer : Layer) (e : Expr)
  /-- Any number of operators of a level with their right operands, which make `whole` of `left`. -/
  | chain (level : Nat) (left whole : Expr)
  /-- Any number of argument lists, which make `whole` of `callee`. -/
  | calls (callee whole : Expr)
  /-- Any number of items, each behind a comma. -/
  | more (items : List Expr)
  /-- One or more items with commas between them. -/
  | items (items : List Expr)
  /-- Any number of items with commas between them, and the symbol that closes them. -/
  | closed (symbol : Symbol) (items : List Expr)

inductive Spells : List Token → Phrase → Prop
  | literal {t : Token} {value : Literal} :
      literal? t = some value → Spells [t] (.expr .primary (.literal value t.position))
  | name {t : Token} :
      t.kind = .name → Spells [t] (.expr .primary (.name t.lexeme.nameText t.position))
  | parens {opening closing : Token} {inner : List Token} {e : Expr} :
      opening.kind = .symbol .openParen → Spells inner (.expr .assignment e) →
      closing.kind = .symbol .closeParen → Spells (opening :: inner ++ [closing]) (.expr .primary e)
  | array {opening : Token} {rest : List Token} {es : List Expr} :
      opening.kind = .symbol .openBracket → Spells rest (.closed .closeBracket es) →
      Spells (opening :: rest) (.expr .primary (.array es opening.position))
  | call {first rest : List Token} {callee whole : Expr} :
      Spells first (.expr .primary callee) → Spells rest (.calls callee whole) →
      Spells (first ++ rest) (.expr .call whole)
  | callsNil {whole : Expr} : Spells [] (.calls whole whole)
  | callsCons {opening : Token} {first rest : List Token} {callee whole : Expr}
      {arguments : List Expr} :
      opening.kind = .symbol .openParen → Spells first (.closed .closeParen arguments) →
      Spells rest (.calls (.call callee arguments opening.position) whole) →
      Spells (opening :: first ++ rest) (.calls callee whole)
  | plain {first : List Token} {e : Expr} :
      Spells first (.expr .call e) → Spells first (.expr .updated e)
  | update {t : Token} {first : List Token} {target : Expr} {op : UpdateOp} :
      Spells first (.expr .call target) → t.kind = .symbol op.symbol →
      Spells (first ++ [t]) (.expr .updated (.update op target false t.position))
  | unsigned {first : List Token} {e : Expr} :
      Spells first (.expr .updated e) → Spells first (.expr .unary e)
  | signed {t : Token} {rest : List Token} {e : Expr} {op : UnaryOp} :
      t.kind = .symbol op.symbol → Spells rest (.expr .unary e) →
      Spells (t :: rest) (.expr .unary (.unary op e t.position))
  | operand {first : List Token} {e : Expr} :
      Spells first (.expr .unary e) → Spells first (.expr (.binary 0) e)
  | binary {level : Nat} {first rest : List Token} {left whole : Expr} :
      Spells first (.expr (.binary level) left) → Spells rest (.chain (level + 1) left whole) →
      Spells (first ++ rest) (.expr (.binary (level + 1)) whole)
  | chainNil {level : Nat} {whole : Expr} : Spells [] (.chain level whole whole)
  | chainCons {level : Nat} {t : Token} {first rest : List Token} {left right whole : Expr}
      {op : BinaryOp} :
      t.kind = .symbol op.symbol → op.level = level + 1 →
      Spells first (.expr (.binary level) right) →
      Spells rest (.chain (level + 1) (.binary left op right t.position) whole) →
      Spells (t :: first ++ rest) (.chain (level + 1) left whole)
  | value {first : List Token} {e : Expr} :
      Spells first (.expr (.binary 7) e) → Spells first (.expr .assignment e)
  | assign {t : Token} {first rest : List Token} {target value : Expr} {op : AssignOp} :
      Spells first (.expr (.binary 7) target) → t.kind = .symbol op.symbol →
      Spells rest (.expr .assignment value) →
      Spells (first ++ t :: rest) (.expr .assignment (.assign target op value t.position))
  | moreNil : Spells [] (.more [])
  | moreCons {comma : Token} {first rest : List Token} {e : Expr} {es : List Expr} :
      comma.kind = .symbol .comma → Spells first (.expr .assignment e) → Spells rest (.more es) →
      Spells (comma :: first ++ rest) (.more (e :: es))
  | items {first rest : List Token} {e : Expr} {es : List Expr} :
      Spells first (.expr .assignment e) → Spells rest (.more es) →
      Spells (first ++ rest) (.items (e :: es))
  | closedNil {closing : Token} {symbol : Symbol} :
      closing.kind = .symbol symbol → Spells [closing] (.closed symbol [])
  | closedItems {closing : Token} {symbol : Symbol} {first : List Token} {es : List Expr} :
      Spells first (.items es) → closing.kind = .symbol symbol →
      Spells (first ++ [closing]) (.closed symbol es)

def opens : Kind → Bool
  | .number | .text | .name => true
  | .keyword .thik | .keyword .galat | .keyword .khali => true
  | .symbol .openParen | .symbol .openBracket => true
  | _ => false

private theorem opens_of_literal? {t : Token} {value : Literal} (h : literal? t = some value) :
    opens t.kind = true := by
  unfold literal? at h
  split at h <;> simp_all [opens]

theorem Spells.head {used : List Token} {layer : Layer} {e : Expr}
    (h : Spells used (.expr layer e)) :
    ∃ t more, used = t :: more ∧
      (opens t.kind = true ∨ 3 ≤ layer.rank ∧ (UnaryOp.ofKind? t.kind).isSome = true) := by
  generalize hp : Phrase.expr layer e = phrase at h
  induction h generalizing layer e with
  | literal hv => exact ⟨_, _, rfl, .inl (opens_of_literal? hv)⟩
  | name hk | parens hk | array hk => exact ⟨_, _, rfl, .inl (by rw [hk]; rfl)⟩
  | @signed t _ _ op hk =>
    cases hp
    exact ⟨_, _, rfl, .inr ⟨Nat.le_refl 3, by rw [UnaryOp.ofKind?_eq_some.mpr hk]; rfl⟩⟩
  | call _ _ first | binary _ _ first | assign _ _ _ first | update _ _ first
  | plain _ first | unsigned _ first | operand _ first | value _ first =>
    obtain ⟨t, more, rfl, start⟩ := first rfl
    cases hp
    refine ⟨t, _, rfl, start.imp_right fun sign => ⟨?_, sign.2⟩⟩
    have := sign.1
    simp only [Layer.rank] at *
    omega
  | _ => cases hp

theorem Spells.ne_nil {used : List Token} {layer : Layer} {e : Expr}
    (h : Spells used (.expr layer e)) : used ≠ [] := by
  obtain ⟨t, more, rfl, -⟩ := h.head
  exact List.cons_ne_nil t more

theorem Spells.head_items {used : List Token} {es : List Expr} (h : Spells used (.items es)) :
    ∃ t more, used = t :: more ∧
      (opens t.kind = true ∨ (UnaryOp.ofKind? t.kind).isSome = true) := by
  cases h with
  | items first _ =>
    obtain ⟨t, more, rfl, start⟩ := first.head
    exact ⟨t, _, rfl, start.imp_right And.right⟩

inductive Clause where
  | stmt (s : Stmt)
  | sequence (body : List Stmt)

inductive Forms : List Token → Clause → Prop
  | newline {t : Token} {rest : List Token} {s : Stmt} :
      t.kind = .newline → Forms rest (.stmt s) → Forms (t :: rest) (.stmt s)
  | declare {t name ending : Token} :
      t.kind = .keyword .solti → name.kind = .name → ending.kind = .symbol .semicolon →
      Forms [t, name, ending] (.stmt (.declare name.lexeme.nameText none t.position))
  | define {t name equals ending : Token} {first : List Token} {e : Expr} :
      t.kind = .keyword .solti → name.kind = .name → equals.kind = .symbol .assign →
      Spells first (.expr .assignment e) → ending.kind = .symbol .semicolon →
      Forms (t :: name :: equals :: first ++ [ending])
        (.stmt (.declare name.lexeme.nameText (some e) t.position))
  | printNone {t ending : Token} :
      t.kind = .keyword .lekh → ending.kind = .symbol .semicolon →
      Forms [t, ending] (.stmt (.print [] t.position))
  | print {t ending : Token} {first : List Token} {es : List Expr} :
      t.kind = .keyword .lekh → Spells first (.items es) → ending.kind = .symbol .semicolon →
      Forms (t :: first ++ [ending]) (.stmt (.print es t.position))
  | branch {t bhane : Token} {first second : List Token} {test : Expr} {consequent : Stmt} :
      t.kind = .keyword .yadi → Spells first (.expr .assignment test) →
      bhane.kind = .keyword .bhane → Forms second (.stmt consequent) →
      Forms (t :: first ++ bhane :: second) (.stmt (.branch test consequent none))
  | branchElse {t bhane natra : Token} {first second breaks third : List Token} {test : Expr}
      {consequent alternate : Stmt} :
      t.kind = .keyword .yadi → Spells first (.expr .assignment test) →
      bhane.kind = .keyword .bhane → Forms second (.stmt consequent) →
      (∀ b ∈ breaks, b.kind = .newline) → natra.kind = .keyword .natra →
      Forms third (.stmt alternate) →
      Forms (t :: first ++ bhane :: second ++ breaks ++ natra :: third)
        (.stmt (.branch test consequent (some alternate)))
  | loop {t : Token} {first second : List Token} {test : Expr} {body : Stmt} :
      t.kind = .keyword .jabaSamma → Spells first (.expr .assignment test) →
      Forms second (.stmt body) → Forms (t :: first ++ second) (.stmt (.loop test body))
  | leave {t ending : Token} :
      t.kind = .keyword .vaiVayoRokki → ending.kind = .symbol .semicolon →
      Forms [t, ending] (.stmt (.leave t.position))
  | next {t ending : Token} :
      t.kind = .keyword .aghiBadhVai → ending.kind = .symbol .semicolon →
      Forms [t, ending] (.stmt (.next t.position))
  | block {opening closing : Token} {first breaks : List Token} {body : List Stmt} :
      opening.kind = .symbol .openBrace → Forms first (.sequence body) →
      (∀ b ∈ breaks, b.kind = .newline) → closing.kind = .symbol .closeBrace →
      Forms (opening :: first ++ breaks ++ [closing]) (.stmt (.block body))
  | expr {ending : Token} {first : List Token} {e : Expr} :
      Spells first (.expr .assignment e) → ending.kind = .symbol .semicolon →
      Forms (first ++ [ending]) (.stmt (.expr e))
  | nil : Forms [] (.sequence [])
  | cons {first rest : List Token} {s : Stmt} {body : List Stmt} :
      Forms first (.stmt s) → Forms rest (.sequence body) →
      Forms (first ++ rest) (.sequence (s :: body))

/-- The tokens form the program, up to line breaks behind it. -/
def FormsProgram (tokens : List Token) (program : Program) : Prop :=
  ∃ used breaks, tokens = used ++ breaks ∧ Forms used (.sequence program) ∧
    ∀ b ∈ breaks, b.kind = .newline

end DaiScript.Grammar
