import DaiScript.Proofs.Blame
import DaiScript.Proofs.Joining
import DaiScript.Proofs.Untouched

/-! The words for the truth values and for nothing stay what they are. They are keywords, so no text
has them as names, and what is no name of a program is never written; so a session keeps them
through any calls, and closes all scopes but the global one after each. -/
namespace DaiScript

open Grammar Running

/-! ### Names are no keywords -/

/-- A name that no keyword of a single word takes. -/
def Unreserved (name : String) : Prop := ∀ k : Keyword, k.words ≠ [name]

namespace Source

theorem Denotes.unreserved {span rest : List Char} {l : Lexeme} (h : Denotes span rest l)
    (name : l.kind = .name) : Unreserved l.nameText := by
  cases h with
  | name _ _ free => exact free
  | newline | whole | fraction | text | keyword | symbol => cases name

theorem Tiles.unreserved {before text : List Char} {tokens : List Token}
    (h : Tiles before text tokens) :
    ∀ t ∈ tokens, t.kind = .name → Unreserved t.lexeme.nameText := by
  induction h with
  | last => simp
  | token _ denotes _ _ _ ih =>
    rw [List.forall_mem_cons]
    exact ⟨denotes.unreserved, ih⟩

private theorem unreserved_of_tokens {source : String} {marked : Bool} {tokens : List Token}
    (h : Source.tokens source marked = .ok tokens) :
    ∀ t ∈ tokens, t.kind = .name → Unreserved t.lexeme.nameText := by
  obtain ⟨before, text, body, rfl, tiles⟩ := exists_tiles h
  intro t ht name
  rw [List.mem_append, List.mem_singleton] at ht
  obtain inside | rfl := ht
  · exact tiles.unreserved t inside name
  · cases name

end Source

/-! ### Names are tokens -/

def Expr.name? : Expr → Option String
  | .name n _ => some n
  | _ => none

mutual

theorem Expr.names_eq (e : Expr) : e.names = e.nodes.filterMap Expr.name? := by
  cases e with
  | binary left op right p =>
    simp [Expr.names, Expr.nodes, Expr.name?, List.filterMap_cons, left.names_eq, right.names_eq]
  | unary op operand p =>
    simp [Expr.names, Expr.nodes, Expr.name?, List.filterMap_cons, operand.names_eq]
  | update op target before p =>
    simp [Expr.names, Expr.nodes, Expr.name?, List.filterMap_cons, target.names_eq]
  | assign target op value p =>
    simp [Expr.names, Expr.nodes, Expr.name?, List.filterMap_cons, target.names_eq, value.names_eq]
  | call callee arguments p =>
    simp [Expr.names, Expr.nodes, Expr.name?, List.filterMap_cons, callee.names_eq,
      Expr.namesAll_eq arguments]
  | literal value p | name n p => rfl
  | array items p =>
    simp [Expr.names, Expr.nodes, Expr.name?, List.filterMap_cons, Expr.namesAll_eq items]

theorem Expr.namesAll_eq (es : List Expr) :
    Expr.namesAll es = (Expr.nodesAll es).filterMap Expr.name? := by
  cases es with
  | nil => rfl
  | cons e es => simp [Expr.namesAll, Expr.nodesAll, e.names_eq, Expr.namesAll_eq es]

end

namespace Grammar

def Named (tokens : List Token) (n : String) : Prop :=
  ∃ t ∈ tokens, t.kind = .name ∧ t.lexeme.nameText = n

theorem Named.mono {few many : List Token} {n : String} (h : Named few n)
    (sub : ∀ t ∈ few, t ∈ many) : Named many n := by
  obtain ⟨t, ht, name⟩ := h
  exact ⟨t, sub t ht, name⟩

theorem named_of_nodes {tokens : List Token} {nodes : List Expr}
    (rooted : ∀ node ∈ nodes, node.Rooted tokens) {n : String}
    (h : n ∈ nodes.filterMap Expr.name?) :
    Named tokens n := by
  obtain ⟨node, inside, found⟩ := List.mem_filterMap.mp h
  cases rooted node inside with
  | name ht hk =>
    cases found
    exact ⟨_, ht, hk, rfl⟩
  | binary | unary | update | assign | call | literal | array => cases found

theorem Spells.named {used : List Token} {layer : Layer} {e : Expr}
    (h : Spells used (.expr layer e)) {n : String} (hn : n ∈ e.names) : Named used n :=
  named_of_nodes (h.rooted List.infix_rfl) (e.names_eq ▸ hn)

private theorem Spells.named_items {used : List Token} {es : List Expr}
    (h : Spells used (.items es)) {n : String} (hn : n ∈ Expr.namesAll es) : Named used n :=
  named_of_nodes (h.rooted List.infix_rfl) (Expr.namesAll_eq es ▸ hn)

def Clause.names : Clause → List String
  | .stmt s => s.names
  | .sequence body => Stmt.namesAll body

theorem Forms.named {used : List Token} {clause : Clause} (h : Forms used clause) :
    ∀ n ∈ clause.names, Named used n := by
  induction h with
  | newline _ _ ih => exact fun n hn => (ih n hn).mono (by simp +contextual)
  | @declare t name ending _ hn _ =>
    simp only [Clause.names, Stmt.names, Option.map_none, Option.getD_none,
      List.forall_mem_singleton]
    exact ⟨name, by simp, hn, rfl⟩
  | @define t name equals ending first e _ hn _ spelled _ =>
    simp only [Clause.names, Stmt.names, Option.map_some, Option.getD_some, List.forall_mem_cons]
    exact ⟨⟨name, by simp, hn, rfl⟩, fun n inside =>
      (spelled.named inside).mono (by simp +contextual)⟩
  | printNone => simp [Clause.names, Stmt.names, Expr.namesAll]
  | print _ spelled _ => exact fun n hn => (spelled.named_items hn).mono (by simp +contextual)
  | branch _ spelled _ _ ih =>
    simp only [Clause.names, Stmt.names, Stmt.namesElse, List.append_nil, List.forall_mem_append]
    exact ⟨fun n hn => (spelled.named hn).mono (by simp +contextual),
      fun n hn => (ih n hn).mono (by simp +contextual)⟩
  | branchElse _ spelled _ _ _ _ _ ih ih' =>
    simp only [Clause.names, Stmt.names, Stmt.namesElse, List.forall_mem_append]
    refine ⟨⟨fun n hn => (spelled.named hn).mono ?_, fun n hn => (ih n hn).mono ?_⟩,
      fun n hn => (ih' n hn).mono ?_⟩ <;> simp +contextual
  | loop _ spelled _ ih =>
    simp only [Clause.names, Stmt.names, List.forall_mem_append]
    exact ⟨fun n hn => (spelled.named hn).mono (by simp +contextual),
      fun n hn => (ih n hn).mono (by simp +contextual)⟩
  | leave | next => simp [Clause.names, Stmt.names]
  | block _ _ _ _ ih => exact fun n hn => (ih n hn).mono (by simp +contextual)
  | expr spelled _ => exact fun n hn => (spelled.named hn).mono (by simp +contextual)
  | nil => simp [Clause.names, Stmt.namesAll]
  | cons _ _ ih ih' =>
    simp only [Clause.names, Stmt.namesAll, List.forall_mem_append]
    exact ⟨fun n hn => (ih n hn).mono (by simp +contextual),
      fun n hn => (ih' n hn).mono (by simp +contextual)⟩

end Grammar

theorem Program.unreserved_of_ofSource {source : String} {marked : Bool} {program : Program}
    (parsed : ofSource source marked = some (.ok program)) :
    ∀ n ∈ Stmt.namesAll program, Unreserved n := by
  obtain ⟨tokens, read, formed⟩ := ofSource_eq_some_ok.mp parsed
  obtain ⟨used, rest, rfl, forms⟩ := exists_forms_of_ofTokens (Source.exists_finish read) formed
  intro n hn
  obtain ⟨t, ht, name, rfl⟩ := forms.named n hn
  exact Source.unreserved_of_tokens read t (List.mem_append_left _ ht) name

/-! ### Sessions -/

section

variable [Sink]

theorem Program.keeps_of_notMem {x : String} {program : Program} (h : x ∉ Stmt.writtenAll program)
    (rounds : Nat) : Process.Keeps (Session.SameColumn x) (program.exec rounds) := by
  have F := frame_sameColumn x
  unfold Program.exec
  apply (F.execAll rounds program (fun _ hn same => h (same ▸ hn)) .null).bind F.toLasting
  intro flow
  cases flow with
  | normal value => exact .pure F.toLasting _
  | leave p => exact .fail F.toLasting _
  | next p => exact .fail F.toLasting _

namespace Session

theorem cases_of_run {rounds : Nat} {source : String} {marked : Bool} {s t : Session}
    (ends : (run rounds source marked s).state? = some t) :
    t = s ∨ ∃ program, Program.ofSource source marked = some (.ok program) ∧
      (program.exec rounds s).state? = some t := by
  cases parsed : Program.ofSource source marked with
  | none =>
    rw [run, parsed] at ends
    cases ends
  | some result =>
    cases result with
    | error failure =>
      rw [run, parsed] at ends
      cases ends
      exact .inl rfl
    | ok program =>
      refine .inr ⟨program, rfl, ?_⟩
      rw [run_eq parsed, Process.mapError] at ends
      cases outcome : program.exec rounds s with
      | done value u | failed fault u | endless =>
        rw [outcome] at ends
        exact ends

theorem keeps_reserved {x : String} {k : Keyword} (word : k.words = [x]) (rounds : Nat)
    (source : String) (marked : Bool) :
    Process.Keeps (SameColumn x) (run rounds source marked) := by
  intro s t ends
  obtain rfl | ⟨program, parsed, ends⟩ := cases_of_run ends
  · rfl
  · refine Program.keeps_of_notMem (fun written => ?_) rounds ends
    have inside := Stmt.writtenAll_subset_names program written
    exact Program.unreserved_of_ofSource parsed x inside k word

theorem run_of_not_program {rounds : Nat} {source : String} {marked : Bool} {s t : Session}
    {failure : Failure} (fails : run rounds source marked s = .failed failure t)
    (early : ∀ fault, failure ≠ .run fault) : t = s := by
  unfold run at fails
  split at fails
  · cases fails
  · cases fails
    rfl
  · split at fails
    · cases fails
    · cases fails
      exact absurd rfl (early _)
    · cases fails

/-- The sessions to which calls lead from a fresh one. Each call has come to an end, with a value or
with a failure, and between calls another sink may be put in place of the one before. -/
inductive Reached : Session → Prop
  | initial (sink : Sink.State) : Reached (.initial sink)
  | output {s : Session} (sink : Sink.State) : Reached s → Reached { s with sink }
  | call {s t : Session} {rounds : Nat} {source : String} {marked : Bool} :
      Reached s → (run rounds source marked s).state? = some t → Reached t

theorem Reached.column {s : Session} (h : s.Reached) {x : String} {k : Keyword}
    (word : k.words = [x]) : s.scopes.column x = Scopes.initial.column x := by
  induction h with
  | initial sink => rfl
  | output sink _ ih => exact ih
  | call _ ends ih => exact (keeps_reserved word _ _ _ ends).trans ih

/-- After any calls from a fresh session on, only the global scope is live, and in it the words for
the truth values and for nothing are bound to these. And whatever text a call runs next, if that is
no program then the session stays as it was. -/
theorem reached_sound {s : Session} (h : s.Reached) :
    s.scopes.depth = 1 ∧
      s.scopes.column "thik" = [some (.bool true)] ∧
      s.scopes.column "galat" = [some (.bool false)] ∧
      s.scopes.column "khali" = [some .null] ∧
      ∀ rounds source marked t,
        (∀ error, run rounds source marked s = .failed (.scan error) t → t = s) ∧
          ∀ error, run rounds source marked s = .failed (.parse error) t → t = s := by
  have truth : s.scopes.column "thik" = [some (.bool true)] := h.column (k := .thik) rfl
  refine ⟨?_, truth, h.column (k := .galat) rfl, h.column (k := .khali) rfl, ?_⟩
  · rw [← s.scopes.length_column "thik", truth]
    rfl
  · intro rounds source marked t
    constructor <;> intro error fails <;> exact run_of_not_program fails (by simp)

end Session

end

namespace Session

open scoped Buffer

/-- The output is refused in the middle of a block, which has declared a name that starts like a
keyword; then a text wants to declare the keyword itself. -/
theorem reached_sound_blocked :
    let source := "\x7b solti thikk = galat; lekh thikk; \x7d"
    let full : Session :=
      { Session.initial Buffer.empty with sink := { Buffer.empty with blocked := some "full" } }
    let error : SyntaxError := ⟨.unexpected "identifier" "'thik'", ⟨1, 7, 6⟩⟩
    ∃ t, run 1 source false full = .failed (.run (.output "full")) t ∧ t.scopes.depth = 1 ∧
      t.scopes.column "thik" = [some (.bool true)] ∧
        t.scopes.column "galat" = [some (.bool false)] ∧
      run 1 "solti thik;" false t = .failed (.parse error) t := by
  intro source full error
  let tokens : List Token :=
    [⟨.symbol .openBrace, ⟨1, 1, 0⟩⟩, ⟨.keyword .solti, ⟨1, 3, 2⟩⟩,
      ⟨⟨.name, some (.name "thikk"), "thikk"⟩, ⟨1, 9, 8⟩⟩, ⟨.symbol .assign, ⟨1, 15, 14⟩⟩,
      ⟨.keyword .galat, ⟨1, 17, 16⟩⟩, ⟨.symbol .semicolon, ⟨1, 22, 21⟩⟩,
      ⟨.keyword .lekh, ⟨1, 24, 23⟩⟩, ⟨⟨.name, some (.name "thikk"), "thikk"⟩, ⟨1, 29, 28⟩⟩,
      ⟨.symbol .semicolon, ⟨1, 34, 33⟩⟩, ⟨.symbol .closeBrace, ⟨1, 36, 35⟩⟩, .finish ⟨1, 37, 36⟩]
  let tokens' : List Token :=
    [⟨.keyword .solti, ⟨1, 1, 0⟩⟩, ⟨.keyword .thik, ⟨1, 7, 6⟩⟩, ⟨.symbol .semicolon, ⟨1, 11, 10⟩⟩,
      .finish ⟨1, 12, 11⟩]
  have read : Source.tokens source false = .ok tokens := by decide +kernel
  have read' : Source.tokens "solti thik;" false = .ok tokens' := by decide +kernel
  have formed : Program.ofTokens tokens =
      some (.ok [.block [.declare "thikk" (some (.literal (.bool false) ⟨1, 17, 16⟩)) ⟨1, 3, 2⟩,
        .print [.name "thikk" ⟨1, 29, 28⟩] ⟨1, 24, 23⟩]]) := by
    dsimp only [tokens]
    cbv
  have broken : Program.ofTokens tokens' = some (.error error) := by
    dsimp only [tokens', error]
    cbv
  obtain ⟨t, fails⟩ : ∃ t, run 1 source false full = .failed (.run (.output "full")) t := by
    rw [run_eq (Program.ofSource_eq_some_ok.mpr ⟨tokens, read, formed⟩)]
    exact ⟨_, rfl⟩
  obtain ⟨u, fails'⟩ : ∃ u, run 1 "solti thik;" false t = .failed (.parse error) u := by
    unfold run Program.ofSource
    rw [read']
    dsimp only
    rw [broken]
    exact ⟨_, rfl⟩
  obtain ⟨depth, truth, untruth, -, unchanged⟩ :=
    reached_sound (.call (.output _ (.initial Buffer.empty)) (congrArg Outcome.state? fails))
  obtain rfl := (unchanged 1 "solti thik;" false u).2 error fails'
  exact ⟨u, fails, depth, truth, untruth, fails'⟩

end Session

end DaiScript
