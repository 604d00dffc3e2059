import DaiScript.Proofs.Origins
import DaiScript.Proofs.StatementSound
import DaiScript.Proofs.Tiling

/-! Every failure points at the right place of its source. Nodes keep the place of the token they
are read from, so what holds of the origin of a fault in the tree becomes a statement about a token:
its kind fits the reason. -/
namespace DaiScript

open Grammar

/-! ### Tokens that fit -/

/-- The token may be to blame for the reason in a run of the program. An operator is to blame for a
name just if the name is its target. -/
inductive Reason.Fits (program : Program) : Reason → Token → Prop
  | name {t : Token} : t.kind = .name → Fits program (.undefined t.lexeme.nameText) t
  | assignment {t : Token} {name : String} {q : Position} {op : AssignOp} {value : Expr} :
      t.kind = .symbol op.symbol →
      .assign (.name name q) op value t.position ∈ Stmt.nodesAll program →
      Fits program (.undefined name) t
  | update {t : Token} {name : String} {q : Position} {op : UpdateOp} {before : Bool} :
      t.kind = .symbol op.symbol →
      .update op (.name name q) before t.position ∈ Stmt.nodesAll program →
      Fits program (.undefined name) t
  | operands {t : Token} {op : BinaryOp} {expected found : String} :
      t.kind = .symbol op.symbol → Fits program (.mismatch expected found) t
  | negated {t : Token} {expected found : String} :
      t.kind = .symbol .minus → Fits program (.mismatch expected found) t
  | updated {t : Token} {op : UpdateOp} {expected found : String} :
      t.kind = .symbol op.symbol → Fits program (.mismatch expected found) t
  | combined {t : Token} {op : AssignOp} {expected found : String} :
      t.kind = .symbol op.symbol → op ≠ .assign → Fits program (.mismatch expected found) t
  | divisor {t : Token} :
      t.kind = .symbol .slash ∨ t.kind = .symbol .percent ∨ t.kind = .symbol .slashAssign →
      Fits program .divisionByZero t
  | called {t : Token} : t.kind = .symbol .openParen → Fits program .unsupportedCall t
  | assignedOther {t : Token} {op : AssignOp} :
      t.kind = .symbol op.symbol → Fits program (.invalidTarget "assignment") t
  | updatedOther {t : Token} {op : UpdateOp} :
      t.kind = .symbol op.symbol → Fits program (.invalidTarget "update") t
  | stray {t : Token} {k : Keyword} :
      k = .vaiVayoRokki ∨ k = .aghiBadhVai → t.kind = .keyword k →
      Fits program (.outsideLoop k.spelling) t

/-- The node has the place of a token of its kind. -/
inductive Expr.Rooted (tokens : List Token) : Expr → Prop
  | binary {t : Token} {left right : Expr} {op : BinaryOp} :
      t ∈ tokens → t.kind = .symbol op.symbol → Rooted tokens (.binary left op right t.position)
  | unary {t : Token} {operand : Expr} {op : UnaryOp} :
      t ∈ tokens → t.kind = .symbol op.symbol → Rooted tokens (.unary op operand t.position)
  | update {t : Token} {target : Expr} {op : UpdateOp} {before : Bool} :
      t ∈ tokens → t.kind = .symbol op.symbol → Rooted tokens (.update op target before t.position)
  | assign {t : Token} {target value : Expr} {op : AssignOp} :
      t ∈ tokens → t.kind = .symbol op.symbol → Rooted tokens (.assign target op value t.position)
  | call {t : Token} {callee : Expr} {arguments : List Expr} :
      t ∈ tokens → t.kind = .symbol .openParen → Rooted tokens (.call callee arguments t.position)
  | literal {value : Literal} {p : Position} : Rooted tokens (.literal value p)
  | name {t : Token} :
      t ∈ tokens → t.kind = .name → Rooted tokens (.name t.lexeme.nameText t.position)
  | array {items : List Expr} {p : Position} : Rooted tokens (.array items p)

theorem Expr.Rooted.fits {tokens : List Token} {program : Program} {e : Expr} {reason : Reason}
    {p : Position} (h : e.Rooted tokens) (inside : e ∈ Stmt.nodesAll program)
    (raised : e.Raises reason p) : ∃ t ∈ tokens, t.position = p ∧ reason.Fits program t := by
  cases h with
  | @binary t left right op ht hk =>
    refine ⟨t, ht, ?_⟩
    cases raised with
    | operands => exact ⟨rfl, .operands hk⟩
    | divisor divides =>
      refine ⟨rfl, .divisor ?_⟩
      obtain rfl | rfl := divides
      · exact .inl hk
      · exact .inr (.inl hk)
  | @unary t operand op ht hk =>
    cases raised with
    | negated => exact ⟨t, ht, rfl, .negated hk⟩
  | @update t target op before ht hk =>
    refine ⟨t, ht, ?_⟩
    cases raised with
    | updated => exact ⟨rfl, .updated hk⟩
    | updatedName => exact ⟨rfl, .update hk inside⟩
    | updatedOther => exact ⟨rfl, .updatedOther hk⟩
  | @assign t target value op ht hk =>
    refine ⟨t, ht, ?_⟩
    cases raised with
    | combined compound => exact ⟨rfl, .combined hk compound⟩
    | divided => exact ⟨rfl, .divisor (.inr (.inr hk))⟩
    | assignedName => exact ⟨rfl, .assignment hk inside⟩
    | assignedOther => exact ⟨rfl, .assignedOther hk⟩
  | @call t callee arguments ht hk =>
    cases raised with
    | called => exact ⟨t, ht, rfl, .called hk⟩
  | literal => cases raised
  | @name t ht hk =>
    cases raised with
    | named => exact ⟨t, ht, rfl, .name hk⟩
  | array => cases raised

def Flow.Rooted (tokens : List Token) : Flow → Prop
  | .normal _ => True
  | .leave p => ∃ t ∈ tokens, t.kind = .keyword .vaiVayoRokki ∧ t.position = p
  | .next p => ∃ t ∈ tokens, t.kind = .keyword .aghiBadhVai ∧ t.position = p

/-! ### Trees that are read -/

namespace Grammar

variable {tokens : List Token}

/-- The expressions of a phrase are rooted, if those it goes on from are. -/
def Phrase.Rooted (tokens : List Token) : Phrase → Prop
  | .expr _ e => ∀ n ∈ e.nodes, n.Rooted tokens
  | .chain _ left whole =>
    (∀ n ∈ left.nodes, n.Rooted tokens) → ∀ n ∈ whole.nodes, n.Rooted tokens
  | .calls callee whole =>
    (∀ n ∈ callee.nodes, n.Rooted tokens) → ∀ n ∈ whole.nodes, n.Rooted tokens
  | .more es | .items es | .closed _ es => ∀ n ∈ Expr.nodesAll es, n.Rooted tokens

theorem infix_of_append {first rest : List Token} (h : first ++ rest <:+: tokens) :
    first <:+: tokens ∧ rest <:+: tokens :=
  ⟨(List.prefix_append first rest).isInfix.trans h, (List.suffix_append first rest).isInfix.trans h⟩

theorem infix_of_cons {t : Token} {rest : List Token} (h : t :: rest <:+: tokens) :
    t ∈ tokens ∧ rest <:+: tokens :=
  ⟨h.subset List.mem_cons_self, (List.suffix_cons t rest).isInfix.trans h⟩

theorem Spells.rooted {used : List Token} {phrase : Phrase} (h : Spells used phrase)
    (inside : used <:+: tokens) : phrase.Rooted tokens := by
  induction h with
  | literal found =>
    simp only [Phrase.Rooted, Expr.nodes, List.forall_mem_singleton]
    exact .literal
  | name hk =>
    simp only [Phrase.Rooted, Expr.nodes, List.forall_mem_singleton]
    exact .name (infix_of_cons inside).1 hk
  | parens hopen _ hclose ih =>
    exact ih (infix_of_append (infix_of_cons inside).2).1
  | array hopen _ ih =>
    simp only [Phrase.Rooted, Expr.nodes, List.forall_mem_cons]
    exact ⟨.array, ih (infix_of_cons inside).2⟩
  | call _ _ callee calls =>
    obtain ⟨front, back⟩ := infix_of_append inside
    exact calls back (callee front)
  | callsNil => exact fun rooted => rooted
  | callsCons hopen _ _ arguments calls =>
    obtain ⟨first, back⟩ := infix_of_append inside
    obtain ⟨opening, front⟩ := infix_of_cons first
    intro rooted
    apply calls back
    simp only [Expr.nodes, List.forall_mem_cons, List.forall_mem_append]
    exact ⟨.call opening hopen, rooted, arguments front⟩
  | plain _ ih | unsigned _ ih | operand _ ih | value _ ih => exact ih inside
  | update _ hk ih =>
    obtain ⟨front, back⟩ := infix_of_append inside
    simp only [Phrase.Rooted, Expr.nodes, List.forall_mem_cons]
    exact ⟨.update (infix_of_cons back).1 hk, ih front⟩
  | signed hk _ ih =>
    obtain ⟨sign, back⟩ := infix_of_cons inside
    simp only [Phrase.Rooted, Expr.nodes, List.forall_mem_cons]
    exact ⟨.unary sign hk, ih back⟩
  | binary _ _ left chain =>
    obtain ⟨front, back⟩ := infix_of_append inside
    exact chain back (left front)
  | chainNil => exact fun rooted => rooted
  | chainCons hk _ _ _ right chain =>
    obtain ⟨first, back⟩ := infix_of_append inside
    obtain ⟨operator, front⟩ := infix_of_cons first
    intro rooted
    apply chain back
    simp only [Expr.nodes, List.forall_mem_cons, List.forall_mem_append]
    exact ⟨.binary operator hk, rooted, right front⟩
  | assign _ hk _ left right =>
    obtain ⟨front, back⟩ := infix_of_append inside
    obtain ⟨operator, last⟩ := infix_of_cons back
    simp only [Phrase.Rooted, Expr.nodes, List.forall_mem_cons, List.forall_mem_append]
    exact ⟨.assign operator hk, left front, right last⟩
  | moreNil => simp [Phrase.Rooted, Expr.nodesAll]
  | moreCons _ _ _ item more =>
    obtain ⟨first, back⟩ := infix_of_append inside
    simp only [Phrase.Rooted, Expr.nodesAll, List.forall_mem_append]
    exact ⟨item (infix_of_cons first).2, more back⟩
  | items _ _ item more =>
    obtain ⟨front, back⟩ := infix_of_append inside
    simp only [Phrase.Rooted, Expr.nodesAll, List.forall_mem_append]
    exact ⟨item front, more back⟩
  | closedNil => simp [Phrase.Rooted, Expr.nodesAll]
  | closedItems _ _ ih => exact ih (infix_of_append inside).1

def Clause.Rooted (tokens : List Token) : Clause → Prop
  | .stmt s => (∀ n ∈ s.nodes, n.Rooted tokens) ∧ ∀ flow ∈ s.signals, flow.Rooted tokens
  | .sequence body =>
    (∀ n ∈ Stmt.nodesAll body, n.Rooted tokens) ∧ ∀ flow ∈ Stmt.signalsAll body, flow.Rooted tokens

theorem Forms.rooted {used : List Token} {clause : Clause} (h : Forms used clause)
    (inside : used <:+: tokens) : clause.Rooted tokens := by
  induction h with
  | newline _ _ ih => exact ih (infix_of_cons inside).2
  | declare => simp [Clause.Rooted, Stmt.nodes, Stmt.signals]
  | define _ _ _ spelled _ =>
    have value := (infix_of_append inside).1
    have rooted := spelled.rooted (infix_of_cons (infix_of_cons (infix_of_cons value).2).2).2
    exact ⟨rooted, by simp [Stmt.signals]⟩
  | printNone => simp [Clause.Rooted, Stmt.nodes, Stmt.signals, Expr.nodesAll]
  | print _ spelled _ =>
    have rooted := spelled.rooted (infix_of_cons (infix_of_append inside).1).2
    exact ⟨rooted, by simp [Stmt.signals]⟩
  | branch _ spelled _ _ ih =>
    obtain ⟨front, back⟩ := infix_of_append inside
    have test := spelled.rooted (infix_of_cons front).2
    have consequent := ih (infix_of_cons back).2
    simp only [Clause.Rooted, Stmt.nodes, Stmt.nodesElse, Stmt.signals, Stmt.signalsElse,
      List.append_nil, List.forall_mem_append]
    exact ⟨⟨test, consequent.1⟩, consequent.2⟩
  | branchElse _ spelled _ _ _ _ _ ih ih' =>
    obtain ⟨most, last⟩ := infix_of_append inside
    obtain ⟨front, back⟩ := infix_of_append (infix_of_append most).1
    have test := spelled.rooted (infix_of_cons front).2
    have consequent := ih (infix_of_cons back).2
    have alternate := ih' (infix_of_cons last).2
    simp only [Clause.Rooted, Stmt.nodes, Stmt.nodesElse, Stmt.signals, Stmt.signalsElse,
      List.forall_mem_append]
    exact ⟨⟨⟨test, consequent.1⟩, alternate.1⟩, consequent.2, alternate.2⟩
  | loop _ spelled _ ih =>
    obtain ⟨front, back⟩ := infix_of_append inside
    have test := spelled.rooted (infix_of_cons front).2
    simp only [Clause.Rooted, Stmt.nodes, Stmt.signals, List.forall_mem_append]
    exact ⟨⟨test, (ih back).1⟩, by simp⟩
  | @leave t _ hk _ | @next t _ hk _ =>
    simp only [Clause.Rooted, Stmt.nodes, Stmt.signals, List.forall_mem_singleton]
    exact ⟨by simp, t, (infix_of_cons inside).1, hk, rfl⟩
  | block _ _ _ _ ih =>
    exact ih (infix_of_cons (infix_of_append (infix_of_append inside).1).1).2
  | expr spelled _ =>
    have rooted := spelled.rooted (infix_of_append inside).1
    exact ⟨rooted, by simp [Stmt.signals]⟩
  | nil => simp [Clause.Rooted, Stmt.nodesAll, Stmt.signalsAll]
  | cons _ _ ih ih' =>
    obtain ⟨front, back⟩ := infix_of_append inside
    simp only [Clause.Rooted, Stmt.nodesAll, Stmt.signalsAll, List.forall_mem_append]
    exact ⟨⟨(ih front).1, (ih' back).1⟩, (ih front).2, (ih' back).2⟩

theorem exists_forms_of_ofTokens (ended : ∃ t ∈ tokens, t.kind = .finish) {program : Program}
    (parsed : Program.ofTokens tokens = some (.ok program)) :
    ∃ used rest, tokens = used ++ rest ∧ Forms used (.sequence program) := by
  have grounded : (Stream.plain tokens).cursor.Grounded := ⟨rfl, ended⟩
  have parses : Parses (statements .finish) (.plain tokens) _ := parses_statements grounded
  unfold Program.ofTokens at parsed
  cases run : statements .finish (.plain tokens) with
  | done body d =>
    rw [run] at parsed
    cases parsed
    obtain ⟨used, walk, forms⟩ := parses.of_done run
    obtain ⟨first, breaks, rfl, formed, -⟩ := forms rfl
    have whole : tokens = first ++ breaks ++ d.cursor.ahead := walk.cursor.ahead
    rw [List.append_assoc] at whole
    exact ⟨first, _, whole, formed⟩
  | failed e d | endless =>
    rw [run] at parsed
    cases parsed

private theorem blame_of_ofTokens (ended : ∃ t ∈ tokens, t.kind = .finish) :
    (∀ program, Program.ofTokens tokens = some (.ok program) →
      (Clause.sequence program).Rooted tokens) ∧
    ∀ error, Program.ofTokens tokens = some (.error error) → ∃ t ∈ tokens, error.Blames t := by
  have grounded : (Stream.plain tokens).cursor.Grounded := ⟨rfl, ended⟩
  have parses : Parses (statements .finish) (.plain tokens) _ := parses_statements grounded
  constructor
  · intro program parsed
    obtain ⟨used, rest, whole, formed⟩ := exists_forms_of_ofTokens ended parsed
    exact formed.rooted (whole ▸ (List.prefix_append _ _).isInfix)
  · intro error parsed
    unfold Program.ofTokens at parsed
    cases run : statements .finish (.plain tokens) with
    | failed e d =>
      rw [run] at parsed
      cases parsed
      exact (parses.of_failed run).2
    | done body d | endless =>
      rw [run] at parsed
      cases parsed

end Grammar

/-! ### Sources -/

namespace Source

private theorem front_of_cut (text : List Char) : covered (cut text).pieces <+: text := by
  fun_induction cut text with
  | case1 => exact List.nil_prefix
  | case2 => exact List.nil_prefix
  | case3 c text used lexeme _ rest ih =>
    have step : c :: text.take used ++ covered rest.pieces <+:
        c :: text.take used ++ text.drop used :=
      (List.prefix_append_right_inj _).mpr ih
    rwa [List.cons_append, List.cons_append, List.take_append_drop] at step

private theorem position_of_error {source : String} {marked : Bool} {error : ScanError}
    (h : Source.tokens source marked = .error error) :
    ∃ front, front <+: source.toList ∧ error.position = .behind front := by
  obtain ⟨lead, text, whole, run | run⟩ := tokens_cases source marked
  · rw [run, tokensFrom] at h
    split at h <;> cases h
    refine ⟨lead ++ covered (cut text).pieces, ?_, behind_advance _ _⟩
    rw [whole]
    exact (List.prefix_append_right_inj _).mpr (front_of_cut text)
  · rw [run] at h
    cases h
    exact ⟨lead, whole ▸ List.prefix_append _ _, rfl⟩

theorem exists_finish {source : String} {marked : Bool} {tokens : List Token}
    (h : Source.tokens source marked = .ok tokens) : ∃ t ∈ tokens, t.kind = .finish := by
  obtain ⟨body, stop, rfl, -⟩ := exists_body h
  exact ⟨.finish stop, List.mem_append_right _ (List.mem_singleton_self _), rfl⟩

end Source

/-- The failure points at the place of the source that is to blame for it. -/
def Failure.Blames (source : String) (marked : Bool) : Failure → Prop
  | .scan error => ∃ front, front <+: source.toList ∧ error.position = .behind front
  | .parse error =>
    ∃ tokens, Source.tokens source marked = .ok tokens ∧ ∃ t ∈ tokens, error.Blames t
  | .run (.broken reason position) =>
    ∃ tokens program, Source.tokens source marked = .ok tokens ∧
      Program.ofTokens tokens = some (.ok program) ∧
      ∃ t ∈ tokens, position = some t.position ∧ reason.Fits program t
  | .run (.output _) => True

private theorem Failure.Blames.position?_eq_none_iff {source : String} {marked : Bool}
    {failure : Failure} (h : failure.Blames source marked) :
    failure.position? = none ↔ failure.category = .io := by
  cases failure with
  | scan error | parse error => simp [Failure.position?, Failure.category]
  | run fault =>
    cases fault with
    | output message => simp [Failure.position?, Failure.category, Fault.position?, Fault.category]
    | broken reason position =>
      obtain ⟨_, _, -, -, t, -, rfl, -⟩ := h
      cases reason <;>
        simp [Failure.position?, Failure.category, Fault.position?, Fault.category, Reason.category]

section

variable [Sink]

private theorem Failure.blames_run {source : String} {marked : Bool} {tokens : List Token}
    {program : Program} {fault : Fault} {rounds : Nat} {s t : Session}
    (read : Source.tokens source marked = .ok tokens)
    (parsed : Program.ofTokens tokens = some (.ok program))
    (rooted : (Clause.sequence program).Rooted tokens)
    (ends : program.exec rounds s = .failed fault t) :
    (Failure.run fault).Blames source marked := by
  obtain (⟨node, inside, reason, p, rfl, raised⟩ | ⟨message, rfl⟩) | ⟨flow, signal, stray⟩ :=
    (program.yields_exec rounds).of_failed ends
  · obtain ⟨token, ht, rfl, fits⟩ := (rooted.1 node inside).fits inside raised
    exact ⟨tokens, program, read, parsed, token, ht, rfl, fits⟩
  · trivial
  · have placed := rooted.2 flow signal
    cases flow with
    | normal value => cases stray
    | leave p =>
      cases stray
      obtain ⟨token, ht, hk, rfl⟩ := placed
      exact ⟨tokens, program, read, parsed, token, ht, rfl, .stray (.inl rfl) hk⟩
    | next p =>
      cases stray
      obtain ⟨token, ht, hk, rfl⟩ := placed
      exact ⟨tokens, program, read, parsed, token, ht, rfl, .stray (.inr rfl) hk⟩

private theorem Failure.blames_of_failed {rounds : Nat} {source : String} {marked : Bool}
    {s t : Session} {failure : Failure}
    (h : Session.run rounds source marked s = .failed failure t) :
    failure.Blames source marked := by
  unfold Session.run Program.ofSource at h
  cases read : Source.tokens source marked with
  | error error =>
    rw [read] at h
    cases h
    exact Source.position_of_error read
  | ok tokens =>
    obtain ⟨rooted, blamed⟩ := blame_of_ofTokens (Source.exists_finish read)
    rw [read] at h
    dsimp only at h
    cases parsed : Program.ofTokens tokens with
    | none =>
      rw [parsed] at h
      cases h
    | some result =>
      rw [parsed] at h
      cases result with
      | error error =>
        cases h
        exact ⟨tokens, read, blamed error parsed⟩
      | ok program =>
        simp only [Option.map_some, Except.mapError] at h
        split at h <;> cases h
        next ends => exact Failure.blames_run read parsed (rooted program parsed) ends

/-- Whatever makes a run fail, the failure points at the right place: an error of the text behind
the part of it that is sound, an error of the grammar at the token it names, and a fault of the
program at a token that fits the reason. Only a fault of the output has no place. -/
theorem blames_of_run {rounds : Nat} {source : String} {marked : Bool} {s t : Session}
    {failure : Failure} (h : Session.run rounds source marked s = .failed failure t) :
    failure.Blames source marked ∧ (failure.position? = none ↔ failure.category = .io) := by
  have blames := Failure.blames_of_failed h
  exact ⟨blames, blames.position?_eq_none_iff⟩

end

open scoped Buffer

/-- The name in parentheses is unbound, which comes out when the operator behind them has its
operand. -/
theorem blames_of_run_target :
    let source := "lekh thik;\n(x) += khali;"
    let fault := Fault.broken (.undefined "x") (some ⟨2, 5, 15⟩)
    (∃ t, Session.run 1 source false (.initial Buffer.empty) = .failed (.run fault) t ∧
        t.sink.printed = "thik\n") ∧
      (Failure.run fault).Blames source false := by
  intro source fault
  let tokens : List Token :=
    [⟨.keyword .lekh, ⟨1, 1, 0⟩⟩, ⟨.keyword .thik, ⟨1, 6, 5⟩⟩, ⟨.symbol .semicolon, ⟨1, 10, 9⟩⟩,
      ⟨.newline, ⟨1, 11, 10⟩⟩, ⟨.symbol .openParen, ⟨2, 1, 11⟩⟩,
      ⟨⟨.name, some (.name "x"), "x"⟩, ⟨2, 2, 12⟩⟩, ⟨.symbol .closeParen, ⟨2, 3, 13⟩⟩,
      ⟨.symbol .plusAssign, ⟨2, 5, 15⟩⟩, ⟨.keyword .khali, ⟨2, 8, 18⟩⟩,
      ⟨.symbol .semicolon, ⟨2, 13, 23⟩⟩, .finish ⟨2, 14, 24⟩]
  have read : Source.tokens source false = .ok tokens := by decide +kernel
  have parsed : Program.ofTokens tokens =
      some (.ok [.print [.literal (.bool true) ⟨1, 6, 5⟩] ⟨1, 1, 0⟩,
        .expr (.assign (.name "x" ⟨2, 2, 12⟩) .add (.literal .null ⟨2, 8, 18⟩) ⟨2, 5, 15⟩)]) := by
    dsimp only [tokens]
    cbv
  have fails : ∃ t, Session.run 1 source false (.initial Buffer.empty) = .failed (.run fault) t ∧
      t.sink.printed = "thik\n" := by
    unfold Session.run Program.ofSource
    rw [read]
    dsimp only
    rw [parsed]
    exact ⟨_, rfl, rfl⟩
  refine ⟨fails, ?_⟩
  obtain ⟨t, run, -⟩ := fails
  exact (blames_of_run run).1

end DaiScript
