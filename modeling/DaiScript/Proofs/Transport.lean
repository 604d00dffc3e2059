import DaiScript.Proofs.Correspondence
import DaiScript.Proofs.Execution

/-! Programs with other names and other places. Running the image of a program amounts to running
the program, as long as the scopes of the two runs correspond whenever a name is looked up or
written. -/
namespace DaiScript

/-! ### Images of trees -/

mutual

def Expr.transport (names : String → String) (places : Position → Position) : Expr → Expr
  | .binary left op right p =>
    .binary (left.transport names places) op (right.transport names places) (places p)
  | .unary op operand p => .unary op (operand.transport names places) (places p)
  | .update op target before p => .update op (target.transport names places) before (places p)
  | .assign target op value p =>
    .assign (target.transport names places) op (value.transport names places) (places p)
  | .call callee arguments p =>
    .call (callee.transport names places) (Expr.transportAll names places arguments) (places p)
  | .literal value p => .literal value (places p)
  | .name n p => .name (names n) (places p)
  | .array items p => .array (Expr.transportAll names places items) (places p)

def Expr.transportAll (names : String → String) (places : Position → Position) :
    List Expr → List Expr
  | [] => []
  | e :: es => e.transport names places :: Expr.transportAll names places es

end

mutual

def Stmt.transport (names : String → String) (places : Position → Position) : Stmt → Stmt
  | .declare name value p =>
    .declare (names name) (value.map (Expr.transport names places)) (places p)
  | .expr e => .expr (e.transport names places)
  | .print arguments p => .print (Expr.transportAll names places arguments) (places p)
  | .branch test consequent alternate =>
    .branch (test.transport names places) (consequent.transport names places)
      (Stmt.transportElse names places alternate)
  | .loop test body => .loop (test.transport names places) (body.transport names places)
  | .block body => .block (Stmt.transportAll names places body)
  | .leave p => .leave (places p)
  | .next p => .next (places p)

def Stmt.transportElse (names : String → String) (places : Position → Position) :
    Option Stmt → Option Stmt
  | none => none
  | some s => some (s.transport names places)

def Stmt.transportAll (names : String → String) (places : Position → Position) :
    List Stmt → List Stmt
  | [] => []
  | s :: body => s.transport names places :: Stmt.transportAll names places body

end

def Fault.moved (places : Position → Position) : Fault → Fault
  | .broken reason position => .broken reason (position.map places)
  | .output message => .output message

def Flow.moved (places : Position → Position) : Flow → Flow
  | .normal value => .normal value
  | .leave p => .leave (places p)
  | .next p => .next (places p)

@[simp] theorem Fault.moved_id (fault : Fault) : fault.moved id = fault := by
  cases fault <;> simp [moved]

@[simp] theorem Flow.moved_id (flow : Flow) : flow.moved id = flow := by
  cases flow <;> rfl

mutual

theorem Expr.transport_id (e : Expr) : e.transport id id = e := by
  cases e with
  | binary left op right p => simp [transport, left.transport_id, right.transport_id]
  | unary op operand p => simp [transport, operand.transport_id]
  | update op target before p => simp [transport, target.transport_id]
  | assign target op value p => simp [transport, target.transport_id, value.transport_id]
  | call callee arguments p =>
    simp [transport, callee.transport_id, Expr.transportAll_id arguments]
  | literal value p => rfl
  | name n p => rfl
  | array items p => simp [transport, Expr.transportAll_id items]

theorem Expr.transportAll_id (es : List Expr) : Expr.transportAll id id es = es := by
  cases es with
  | nil => rfl
  | cons e es => simp [transportAll, e.transport_id, Expr.transportAll_id es]

end

mutual

theorem Stmt.transport_id (s : Stmt) : s.transport id id = s := by
  cases s with
  | declare name value p => cases value <;> simp [transport, Expr.transport_id]
  | expr e => simp [transport, Expr.transport_id]
  | print arguments p => simp [transport, Expr.transportAll_id]
  | branch test consequent alternate =>
    simp [transport, Expr.transport_id, consequent.transport_id, Stmt.transportElse_id alternate]
  | loop test body => simp [transport, Expr.transport_id, body.transport_id]
  | block body => simp [transport, Stmt.transportAll_id body]
  | leave p => rfl
  | next p => rfl

theorem Stmt.transportElse_id (alternate : Option Stmt) :
    Stmt.transportElse id id alternate = alternate := by
  cases alternate with
  | none => rfl
  | some s => simp [transportElse, s.transport_id]

theorem Stmt.transportAll_id (body : List Stmt) : Stmt.transportAll id id body = body := by
  cases body with
  | nil => rfl
  | cons s body => simp [transportAll, s.transport_id, Stmt.transportAll_id body]

end

/-! ### The names in a tree -/

mutual

/-- The names that occur in an expression, whether it would ever get to them or not. -/
def Expr.names : Expr → List String
  | .binary left _ right _ => left.names ++ right.names
  | .unary _ operand _ => operand.names
  | .update _ target _ _ => target.names
  | .assign target _ value _ => target.names ++ value.names
  | .call callee arguments _ => callee.names ++ Expr.namesAll arguments
  | .literal _ _ => []
  | .name n _ => [n]
  | .array items _ => Expr.namesAll items

def Expr.namesAll : List Expr → List String
  | [] => []
  | e :: es => e.names ++ Expr.namesAll es

end

mutual

def Stmt.names : Stmt → List String
  | .declare name value _ => name :: (value.map Expr.names).getD []
  | .expr e => e.names
  | .print arguments _ => Expr.namesAll arguments
  | .branch test consequent alternate => test.names ++ consequent.names ++ Stmt.namesElse alternate
  | .loop test body => test.names ++ body.names
  | .block body => Stmt.namesAll body
  | .leave _ | .next _ => []

def Stmt.namesElse : Option Stmt → List String
  | none => []
  | some s => s.names

def Stmt.namesAll : List Stmt → List String
  | [] => []
  | s :: body => s.names ++ Stmt.namesAll body

end

/-! ### Faults of operations -/

namespace Value

theorem onNumbers_moved (places : Position → Position)
    {operation operation' : Number → Number → Except Fault Value}
    (h : ∀ a b, operation' a b = (operation a b).mapError (·.moved places)) (left right : Value)
    (p : Position) :
    onNumbers operation' left right (places p) =
      (onNumbers operation left right p).mapError (·.moved places) := by
  unfold onNumbers
  split
  · exact h _ _
  · rfl

private theorem divide_moved (places : Position → Position) (operation : Number → Number → Number)
    (p : Position) (a b : Number) :
    divide operation (places p) a b = (divide operation p a b).mapError (·.moved places) := by
  unfold divide
  split <;> rfl

theorem binary_moved (places : Position → Position) (op : BinaryOp) (left right : Value)
    (p : Position) :
    binary op left right (places p) = (binary op left right p).mapError (·.moved places) := by
  cases op with
  | add => cases left <;> cases right <;> rfl
  | div | mod => exact onNumbers_moved places (divide_moved places _ p) left right p
  | equal | notEqual | and | or => rfl
  | _ =>
    apply onNumbers_moved places
    intro a b
    rfl

private theorem unary_moved (places : Position → Position) (op : UnaryOp) (operand : Value)
    (p : Position) :
    unary op operand (places p) = (unary op operand p).mapError (·.moved places) := by
  cases op <;> cases operand <;> rfl

private theorem update_moved (places : Position → Position) (op : UpdateOp) (current : Value)
    (before : Bool) (p : Position) :
    update op current before (places p) =
      (update op current before p).mapError (·.moved places) := by
  cases current <;> rfl

private theorem assigned_moved (places : Position → Position) (op : AssignOp)
    (current right : Value) (p : Position) :
    assigned op current right (places p) =
      (assigned op current right p).mapError (·.moved places) := by
  unfold assigned
  split
  · rfl
  · exact binary_moved places _ current right p

end Value

/-! ### Running the image -/

theorem Expr.other_transport {e : Expr} (other : ∀ n q, e ≠ .name n q) (names : String → String)
    (places : Position → Position) : ∀ n q, e.transport names places ≠ .name n q := by
  cases e with
  | name n q => exact absurd rfl (other n q)
  | _ => nofun

theorem Scopes.isSome_rebind (name : String) (value : Value) (scopes : List Scope) :
    (rebind name value scopes).isSome = (scopes.findSome? (·.get? name)).isSome := by
  induction scopes with
  | nil => rfl
  | cons scope rest ih =>
    unfold rebind
    cases found : scope.get? name with
    | some v => simp [found]
    | none => simp [found, ih]

theorem Scopes.isSome_assign? (s : Scopes) (name : String) (value : Value) :
    (s.assign? name value).isSome = (s.get? name).isSome := by
  have inner := isSome_rebind name value s.inner
  unfold assign? get?
  cases found : rebind name value s.inner with
  | some scopes =>
    rw [found, Option.isSome_some] at inner
    rw [Option.isSome_or, ← inner]
    rfl
  | none =>
    rw [found, Option.isSome_none] at inner
    rw [Option.isSome_or, ← inner, Bool.false_or]
    cases s.global.get? name <;> rfl

/-- What makes the run of the image follow the run of a program in which only `known` names
occur. -/
structure Simulation where
  names : String → String
  places : Position → Position
  known : String → Prop
  /-- Which scopes correspond inside so many blocks. -/
  scopes : Nat → Scopes → Scopes → Prop
  get : ∀ {depth s t name}, scopes depth s t → known name → t.get? (names name) = s.get? name
  /-- Only a name that keeps its spelling may turn out to be unbound. -/
  unbound : ∀ {depth s t name}, scopes depth s t → known name → s.get? name = none →
    names name = name
  assign : ∀ {depth s t name value s'}, scopes depth s t → known name →
    s.assign? name value = some s' → ∃ t', t.assign? (names name) value = some t' ∧
      scopes depth s' t'
  define : ∀ {depth s t name value}, scopes depth s t → known name →
    scopes depth (s.define name value) (t.define (names name) value)
  push : ∀ {depth s t}, scopes depth s t → scopes (depth + 1) s.push t.push
  pop : ∀ {depth s t}, scopes (depth + 1) s t → scopes depth s.pop t.pop

namespace Simulation

open Evaluating Running

variable [Sink] (S : Simulation) (excused : Option Fault → Prop) (depth : Nat)

/-- The sessions agree in their sinks, and their scopes correspond. -/
def inside : Correspondence Fault Session where
  state s t := S.scopes depth s.scopes t.scopes ∧ t.sink = s.sink
  error e e' := e' = e.moved S.places
  excused := excused

variable {S excused depth}

theorem ofResult_matches {result result' : Except Fault α}
    (h : result' = result.mapError (·.moved S.places)) :
    Process.Matches (S.inside excused depth) Eq (evaluate (ofResult result))
      (evaluate (ofResult result')) := by
  subst h
  rw [evaluate_ofResult, evaluate_ofResult]
  cases result with
  | ok a => exact .pure rfl
  | error fault => exact .fail rfl

theorem fetch_matches {name : String} (p : Position) (known : S.known name) :
    Process.Matches (S.inside excused depth) Eq (evaluate (fetch name p))
      (evaluate (fetch (S.names name) (S.places p))) := by
  intro s t h
  have same := S.get h.1 known
  unfold evaluate fetch Scopes.lookup
  rw [same]
  cases found : s.scopes.get? name with
  | some value => exact .done rfl h
  | none =>
    rw [S.unbound h.1 known found]
    exact .failed rfl h

theorem store_matches {name : String} (value : Value) (p : Position) (known : S.known name) :
    Process.Matches (S.inside excused depth) Eq (evaluate (store name value p))
      (evaluate (store (S.names name) value (S.places p))) := by
  intro s t h
  unfold evaluate store Scopes.assign
  cases stored : s.scopes.assign? name value with
  | some s' =>
    obtain ⟨t', stored', related⟩ := S.assign h.1 known stored
    rw [stored']
    exact .done rfl ⟨related, h.2⟩
  | none =>
    have missing : s.scopes.get? name = none := by
      rw [← Option.not_isSome_iff_eq_none, ← Scopes.isSome_assign? _ _ value, stored]
      simp
    have missing' : t.scopes.assign? (S.names name) value = none := by
      rw [← Option.not_isSome_iff_eq_none, Scopes.isSome_assign?, S.get h.1 known, missing]
      simp
    rw [missing', S.unbound h.1 known missing]
    exact .failed rfl h

private theorem update_matches (op : UpdateOp) (target : Expr) (before : Bool) (p : Position)
    (known : ∀ n ∈ target.names, S.known n) :
    Process.Matches (S.inside excused depth) Eq (evaluate (Expr.update op target before p).eval)
      (evaluate ((Expr.update op target before p).transport S.names S.places).eval) := by
  rw [Expr.transport]
  obtain ⟨n, q, rfl⟩ | other := target.name_or_other
  · have written : S.known n := known n (by simp [Expr.names])
    rw [Expr.transport, Expr.evaluate_update_name, Expr.evaluate_update_name]
    apply (fetch_matches p written).bind_same
    intro current
    apply (ofResult_matches (Value.update_moved S.places op current before p)).bind_same
    intro result
    apply (store_matches result.1 p written).bind_same
    intro _
    exact .pure rfl
  · rw [Expr.evaluate_update_other other,
      Expr.evaluate_update_other (Expr.other_transport other _ _)]
    exact .fail rfl

private theorem assign_matches (target : Expr) (op : AssignOp) {value : Expr} (p : Position)
    (known : ∀ n ∈ target.names, S.known n)
    (h : Process.Matches (S.inside excused depth) Eq (evaluate value.eval)
      (evaluate (value.transport S.names S.places).eval)) :
    Process.Matches (S.inside excused depth) Eq (evaluate (Expr.assign target op value p).eval)
      (evaluate ((Expr.assign target op value p).transport S.names S.places).eval) := by
  rw [Expr.transport]
  obtain ⟨n, q, rfl⟩ | other := target.name_or_other
  · have written : S.known n := known n (by simp [Expr.names])
    have stored : ∀ result : Value, Process.Matches (S.inside excused depth) Eq
        (evaluate (store n result p) >>= fun _ => Pure.pure result)
        (evaluate (store (S.names n) result (S.places p)) >>= fun _ => Pure.pure result) :=
      fun result => (store_matches result p written).bind_same fun _ => .pure rfl
    rw [Expr.transport, Expr.evaluate_assign_name, Expr.evaluate_assign_name]
    apply h.bind_same
    intro right
    split
    · exact stored right
    · apply (fetch_matches p written).bind_same
      intro current
      apply (ofResult_matches (Value.assigned_moved S.places op current right p)).bind_same
      exact stored
  · rw [Expr.evaluate_assign_other other,
      Expr.evaluate_assign_other (Expr.other_transport other _ _)]
    exact .fail rfl

mutual

theorem eval_matches (e : Expr) (known : ∀ n ∈ e.names, S.known n) :
    Process.Matches (S.inside excused depth) Eq (evaluate e.eval)
      (evaluate (e.transport S.names S.places).eval) := by
  cases e with
  | binary left op right p =>
    simp only [Expr.names, List.forall_mem_append] at known
    rw [Expr.transport, Expr.evaluate_binary, Expr.evaluate_binary]
    apply (eval_matches left known.1).bind_same
    intro value
    cases Value.shortCircuit? op value with
    | some decided => exact .pure rfl
    | none =>
      apply (eval_matches right known.2).bind_same
      intro value'
      exact ofResult_matches (Value.binary_moved S.places op value value' p)
  | unary op operand p =>
    rw [Expr.transport, Expr.evaluate_unary, Expr.evaluate_unary]
    apply (eval_matches operand known).bind_same
    intro value
    exact ofResult_matches (Value.unary_moved S.places op value p)
  | update op target before p => exact update_matches op target before p known
  | assign target op value p =>
    simp only [Expr.names, List.forall_mem_append] at known
    exact assign_matches target op p known.1 (eval_matches value known.2)
  | call callee arguments p =>
    rw [Expr.transport, Expr.eval, Expr.eval, evaluate_throw, evaluate_throw]
    exact .fail rfl
  | literal value p =>
    rw [Expr.transport, Expr.eval, Expr.eval]
    exact .pure rfl
  | name n p =>
    rw [Expr.transport, Expr.eval, Expr.eval]
    exact fetch_matches p (known n (by simp [Expr.names]))
  | array items p =>
    rw [Expr.transport, Expr.evaluate_array, Expr.evaluate_array]
    apply (evalAll_matches items known).bind_same
    intro values
    exact .pure rfl

theorem evalAll_matches (es : List Expr) (known : ∀ n ∈ Expr.namesAll es, S.known n) :
    Process.Matches (S.inside excused depth) Eq (evaluate (Expr.evalAll es))
      (evaluate (Expr.evalAll (Expr.transportAll S.names S.places es))) := by
  cases es with
  | nil => exact .pure rfl
  | cons e es =>
    simp only [Expr.namesAll, List.forall_mem_append] at known
    rw [Expr.transportAll, Expr.evaluate_cons, Expr.evaluate_cons]
    apply (eval_matches e known.1).bind_same
    intro value
    apply (evalAll_matches es known.2).bind_same
    intro values
    exact .pure rfl

end

private theorem define_matches {name : String} (value : Value) (known : S.known name) :
    Process.Matches (S.inside excused depth) Eq (Running.define name value)
      (Running.define (S.names name) value) :=
  fun _ _ h => .done rfl ⟨S.define h.1 known, h.2⟩

private theorem write_matches (text : String) :
    Process.Matches (S.inside excused depth) Eq (write text) (write text) := by
  rintro s t ⟨related, same⟩
  unfold write
  rw [same]
  cases Sink.write text s.sink with
  | ok _ sink => exact .done rfl ⟨related, rfl⟩
  | error message sink => exact .failed rfl ⟨related, rfl⟩

private theorem inScope_matches {run run' : Running α} {value : α → α → Prop}
    (h : Process.Matches (S.inside excused (depth + 1)) value run run') :
    Process.Matches (S.inside excused depth) value (inScope run) (inScope run') := by
  intro s t related
  have pushed : (S.inside excused (depth + 1)).state { s with scopes := s.scopes.push }
      { t with scopes := t.scopes.push } := ⟨S.push related.1, related.2⟩
  apply (h pushed).mapState
  · intro s t related
    exact ⟨S.pop related.1, related.2⟩
  · exact fun _ _ same => same
  · exact fun _ excused => excused

def flows (S : Simulation) (flow flow' : Flow) : Prop := flow' = flow.moved S.places

private theorem repeatWhile_matches {test test' : Running Value} {body body' : Running Flow}
    (h : Process.Matches (S.inside excused depth) Eq test test')
    (k : Process.Matches (S.inside excused depth) S.flows body body') {rounds rounds' : Nat}
    (lasts : Lasts (excused none) rounds rounds') (value : Value) :
    Process.Matches (S.inside excused depth) S.flows (repeatWhile test body rounds value)
      (repeatWhile test' body' rounds' value) := by
  induction lasts generalizing value with
  | zero => exact .endless
  | short impatient => exact .excused impatient _
  | succ _ ih =>
    unfold repeatWhile
    apply h.bind_same
    intro holds
    split
    · apply k.bind
      rintro flow _ rfl
      cases flow with
      | normal value' => exact ih value'
      | next p => exact ih value
      | leave p => exact .pure rfl
    · exact .pure rfl

mutual

theorem exec_matches {depth : Nat} (s : Stmt) (known : ∀ n ∈ s.names, S.known n)
    {rounds rounds' : Nat}
    (lasts : Lasts (excused none) rounds rounds') :
    Process.Matches (S.inside excused depth) S.flows (s.exec rounds)
      ((s.transport S.names S.places).exec rounds') := by
  cases s with
  | declare name value p =>
    have bound : S.known name := known name (by simp [Stmt.names])
    have defined : ∀ value, Process.Matches (S.inside excused depth) S.flows
        (Running.define name value >>= fun _ => Pure.pure (.normal value))
        (Running.define (S.names name) value >>= fun _ => Pure.pure (.normal value)) :=
      fun value => (define_matches value bound).bind_same fun _ => .pure rfl
    rw [Stmt.transport]
    cases value with
    | none =>
      rw [Option.map_none, Stmt.exec_declare_none, Stmt.exec_declare_none]
      exact defined .null
    | some e =>
      have inner : ∀ n ∈ e.names, S.known n := fun n hn => known n (by simp [Stmt.names, hn])
      rw [Option.map_some, Stmt.exec_declare_some, Stmt.exec_declare_some]
      exact (eval_matches e inner).bind_same defined
  | expr e =>
    rw [Stmt.transport, Stmt.exec, Stmt.exec]
    exact (eval_matches e known).bind_same fun value => .pure rfl
  | print arguments p =>
    rw [Stmt.transport, Stmt.exec, Stmt.exec]
    apply (evalAll_matches arguments known).bind_same
    intro values
    exact (write_matches _).bind_same fun _ => .pure rfl
  | branch test consequent alternate =>
    simp only [Stmt.names, List.forall_mem_append] at known
    rw [Stmt.transport, Stmt.exec_branch, Stmt.exec_branch]
    apply (eval_matches test known.1.1).bind_same
    intro holds
    split
    · exact exec_matches consequent known.1.2 lasts
    · cases alternate with
      | none => exact .pure rfl
      | some s => exact exec_matches s known.2 lasts
  | loop test body =>
    simp only [Stmt.names, List.forall_mem_append] at known
    rw [Stmt.transport, Stmt.exec, Stmt.exec]
    exact repeatWhile_matches (eval_matches test known.1) (exec_matches body known.2 lasts) lasts _
  | block body =>
    rw [Stmt.transport, Stmt.exec, Stmt.exec]
    exact inScope_matches (execAll_matches body known lasts .null)
  | leave p | next p =>
    rw [Stmt.transport, Stmt.exec, Stmt.exec]
    exact .pure rfl

theorem execAll_matches {depth : Nat} (body : List Stmt)
    (known : ∀ n ∈ Stmt.namesAll body, S.known n) {rounds rounds' : Nat}
    (lasts : Lasts (excused none) rounds rounds') (value : Value) :
    Process.Matches (S.inside excused depth) S.flows (Stmt.execAll rounds value body)
      (Stmt.execAll rounds' value (Stmt.transportAll S.names S.places body)) := by
  cases body with
  | nil => exact .pure rfl
  | cons s body =>
    simp only [Stmt.namesAll, List.forall_mem_append] at known
    rw [Stmt.transportAll, Stmt.execAll, Stmt.execAll]
    apply (exec_matches s known.1 lasts).bind
    rintro flow _ rfl
    cases flow with
    | normal value => exact execAll_matches body known.2 lasts value
    | leave p => exact .pure rfl
    | next p => exact .pure rfl

end

end Simulation

end DaiScript
