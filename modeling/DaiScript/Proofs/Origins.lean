import DaiScript.Proofs.Execution

/-! Where faults and loop control come from. Whatever tree is run in whatever session, a fault other
than that of the output was raised by a node of the tree and has the place of that node, and loop
control that a statement hands on was written in it outside of its loops. -/
namespace DaiScript

/-- In whatever state the process starts, its value meets `good` and its error `blamed`. -/
structure Process.Yields (good : α → Prop) (blamed : ε → Prop) (p : Process ε σ α) : Prop where
  of_done : ∀ {s a t}, p s = .done a t → good a
  of_failed : ∀ {s e t}, p s = .failed e t → blamed e

namespace Process.Yields

variable {good : α → Prop} {whole : β → Prop} {blamed : ε → Prop}

theorem pure {a : α} (h : good a) : Yields good blamed (Pure.pure a : Process ε σ α) where
  of_done run := by cases run; exact h
  of_failed run := nomatch run

theorem fail {e : ε} (h : blamed e) : Yields good blamed (Process.fail e : Process ε σ α) where
  of_done run := nomatch run
  of_failed run := by cases run; exact h

theorem endless : Yields good blamed (Process.endless : Process ε σ α) where
  of_done run := nomatch run
  of_failed run := nomatch run

theorem bind {p : Process ε σ α} {next : α → Process ε σ β} (h : Yields good blamed p)
    (k : ∀ a, good a → Yields whole blamed (next a)) : Yields whole blamed (p >>= next) where
  of_done run := by
    obtain ⟨a, u, first, second⟩ := Process.bind_eq_done_iff.mp run
    exact (k a (h.of_done first)).of_done second
  of_failed run := by
    obtain first | ⟨a, u, first, second⟩ := Process.bind_eq_failed_iff.mp run
    · exact h.of_failed first
    · exact (k a (h.of_done first)).of_failed second

theorem mono {p : Process ε σ α} {better : α → Prop} {worse : ε → Prop} (h : Yields good blamed p)
    (values : ∀ a, good a → better a) (errors : ∀ e, blamed e → worse e) :
    Yields better worse p where
  of_done run := values _ (h.of_done run)
  of_failed run := errors _ (h.of_failed run)

end Process.Yields

/-! ### The nodes of a tree -/

mutual

def Expr.nodes (e : Expr) : List Expr :=
  e :: match e with
    | .binary left _ right _ => left.nodes ++ right.nodes
    | .unary _ operand _ => operand.nodes
    | .update _ target _ _ => target.nodes
    | .assign target _ value _ => target.nodes ++ value.nodes
    | .call callee arguments _ => callee.nodes ++ Expr.nodesAll arguments
    | .literal _ _ | .name _ _ => []
    | .array items _ => Expr.nodesAll items

def Expr.nodesAll : List Expr → List Expr
  | [] => []
  | e :: es => e.nodes ++ Expr.nodesAll es

end

mutual

def Stmt.nodes : Stmt → List Expr
  | .declare _ value _ => (value.map Expr.nodes).getD []
  | .expr e => e.nodes
  | .print arguments _ => Expr.nodesAll arguments
  | .branch test consequent alternate => test.nodes ++ consequent.nodes ++ Stmt.nodesElse alternate
  | .loop test body => test.nodes ++ body.nodes
  | .block body => Stmt.nodesAll body
  | .leave _ | .next _ => []

def Stmt.nodesElse : Option Stmt → List Expr
  | none => []
  | some s => s.nodes

def Stmt.nodesAll : List Stmt → List Expr
  | [] => []
  | s :: body => s.nodes ++ Stmt.nodesAll body

end

mutual

def Stmt.signals : Stmt → List Flow
  | .branch _ consequent alternate => consequent.signals ++ Stmt.signalsElse alternate
  | .block body => Stmt.signalsAll body
  | .leave p => [.leave p]
  | .next p => [.next p]
  | .declare _ _ _ | .expr _ | .print _ _ | .loop _ _ => []

def Stmt.signalsElse : Option Stmt → List Flow
  | none => []
  | some s => s.signals

def Stmt.signalsAll : List Stmt → List Flow
  | [] => []
  | s :: body => s.signals ++ Stmt.signalsAll body

end

/-! ### Faults of single nodes -/

/-- The node may fail for the reason, and then does so at the place. -/
inductive Expr.Raises : Expr → Reason → Position → Prop
  | operands {left right : Expr} {op : BinaryOp} {p : Position} {expected found : String} :
      Raises (.binary left op right p) (.mismatch expected found) p
  | divisor {left right : Expr} {op : BinaryOp} {p : Position} :
      op = .div ∨ op = .mod → Raises (.binary left op right p) .divisionByZero p
  | negated {operand : Expr} {p : Position} {expected found : String} :
      Raises (.unary .negate operand p) (.mismatch expected found) p
  | updated {target : Expr} {op : UpdateOp} {before : Bool} {p : Position}
      {expected found : String} :
      Raises (.update op target before p) (.mismatch expected found) p
  | updatedName {n : String} {q : Position} {op : UpdateOp} {before : Bool} {p : Position} :
      Raises (.update op (.name n q) before p) (.undefined n) p
  | updatedOther {target : Expr} {op : UpdateOp} {before : Bool} {p : Position} :
      Raises (.update op target before p) (.invalidTarget "update") p
  | combined {target value : Expr} {op : AssignOp} {p : Position} {expected found : String} :
      op ≠ .assign → Raises (.assign target op value p) (.mismatch expected found) p
  | divided {target value : Expr} {p : Position} :
      Raises (.assign target .div value p) .divisionByZero p
  | assignedName {n : String} {q : Position} {value : Expr} {op : AssignOp} {p : Position} :
      Raises (.assign (.name n q) op value p) (.undefined n) p
  | assignedOther {target value : Expr} {op : AssignOp} {p : Position} :
      Raises (.assign target op value p) (.invalidTarget "assignment") p
  | called {callee : Expr} {arguments : List Expr} {p : Position} :
      Raises (.call callee arguments p) .unsupportedCall p
  | named {n : String} {p : Position} : Raises (.name n p) (.undefined n) p

def Fault.From (nodes : List Expr) (fault : Fault) : Prop :=
  ∃ node ∈ nodes, ∃ reason p, fault = .broken reason (some p) ∧ node.Raises reason p

def Fault.Within (nodes : List Expr) (fault : Fault) : Prop :=
  fault.From nodes ∨ ∃ message, fault = .output message

def Flow.From (signals : List Flow) (flow : Flow) : Prop :=
  (∃ value, flow = .normal value) ∨ flow ∈ signals

theorem Fault.From.mono {few many : List Expr} {fault : Fault} (h : fault.From few)
    (sub : few ⊆ many) : fault.From many := by
  obtain ⟨node, inside, raised⟩ := h
  exact ⟨node, sub inside, raised⟩

theorem Process.Yields.wider {few many : List Expr} {good : α → Prop} {p : Process Fault σ α}
    (h : Yields good (Fault.From few) p) (sub : few ⊆ many) : Yields good (Fault.From many) p :=
  h.mono (fun _ kept => kept) fun _ raised => raised.mono sub

theorem Process.Yields.part {few many : List Flow} {inner outer : List Expr}
    {p : Process Fault σ Flow} (h : Yields (Flow.From few) (Fault.Within inner) p)
    (flows : few ⊆ many) (faults : inner ⊆ outer) :
    Yields (Flow.From many) (Fault.Within outer) p :=
  h.mono (fun _ flow => flow.imp_right fun signal => flows signal)
    fun _ fault => fault.imp_left (·.mono faults)

theorem Process.Yields.within {few many : List Expr} {good : α → Prop} {p : Process Fault σ α}
    (h : Yields good (Fault.From few) p) (sub : few ⊆ many) : Yields good (Fault.Within many) p :=
  h.mono (fun _ kept => kept) fun _ raised => .inl (raised.mono sub)

private theorem Expr.mem_nodes (e : Expr) : e ∈ e.nodes := by
  cases e <;> simp [nodes]

theorem Expr.Raises.from {e : Expr} {reason : Reason} {p : Position} (h : e.Raises reason p) :
    (Fault.broken reason (some p)).From e.nodes :=
  ⟨e, e.mem_nodes, reason, p, rfl, h⟩

namespace Value

theorem onNumbers_fault {operation : Number → Number → Except Fault Value} {left right : Value}
    {p : Position} {fault : Fault} (h : onNumbers operation left right p = .error fault) :
    (∃ expected found, fault = .broken (.mismatch expected found) (some p)) ∨
      ∃ a b, operation a b = .error fault := by
  unfold onNumbers at h
  split at h
  · exact .inr ⟨_, _, h⟩
  · cases h
    exact .inl ⟨_, _, rfl⟩

theorem divide_fault {operation : Number → Number → Number} {p : Position} {a b : Number}
    {fault : Fault} (h : divide operation p a b = .error fault) :
    fault = .broken .divisionByZero (some p) := by
  unfold divide at h
  split at h <;> cases h
  rfl

private theorem add_fault {left right : Value} {p : Position} {fault : Fault}
    (h : add left right p = .error fault) :
    ∃ expected found, fault = .broken (.mismatch expected found) (some p) := by
  unfold add at h
  split at h <;> cases h
  exact ⟨_, _, rfl⟩

theorem binary_fault {op : BinaryOp} {left right : Value} {p : Position} {fault : Fault}
    (h : binary op left right p = .error fault) :
    (∃ expected found, fault = .broken (.mismatch expected found) (some p)) ∨
      (op = .div ∨ op = .mod) ∧ fault = .broken .divisionByZero (some p) := by
  cases op with
  | add => exact .inl (add_fault h)
  | div =>
    apply (onNumbers_fault h).imp_right
    rintro ⟨a, b, divided⟩
    exact ⟨.inl rfl, divide_fault divided⟩
  | mod =>
    apply (onNumbers_fault h).imp_right
    rintro ⟨a, b, divided⟩
    exact ⟨.inr rfl, divide_fault divided⟩
  | equal | notEqual | and | or => cases h
  | _ =>
    apply (onNumbers_fault h).imp_right
    rintro ⟨a, b, impossible⟩
    cases impossible

end Value

section

variable {left right operand target value : Expr} {p : Position} {fault : Fault}

private theorem from_binary {op : BinaryOp} {a b : Value}
    (h : Value.binary op a b p = .error fault) :
    fault.From (Expr.binary left op right p).nodes := by
  obtain ⟨expected, found, rfl⟩ | ⟨divides, rfl⟩ := Value.binary_fault h
  · exact Expr.Raises.operands.from
  · exact (Expr.Raises.divisor divides).from

private theorem from_unary {op : UnaryOp} {a : Value} (h : Value.unary op a p = .error fault) :
    fault.From (Expr.unary op operand p).nodes := by
  cases op with
  | not => cases h
  | negate =>
    cases a with
    | number n => cases h
    | _ =>
      cases h
      exact Expr.Raises.negated.from

private theorem from_update {op : UpdateOp} {a : Value} {before : Bool}
    (h : Value.update op a before p = .error fault) :
    fault.From (Expr.update op target before p).nodes := by
  unfold Value.update at h
  split at h <;> cases h
  exact Expr.Raises.updated.from

private theorem from_assigned {op : AssignOp} {a b : Value}
    (h : Value.assigned op a b p = .error fault) :
    fault.From (Expr.assign target op value p).nodes := by
  unfold Value.assigned at h
  split at h
  · cases h
  · next combining found =>
    have compound : op ≠ .assign := by
      rintro rfl
      cases found
    obtain ⟨expected, kind, rfl⟩ | ⟨divides, rfl⟩ := Value.binary_fault h
    · exact (Expr.Raises.combined compound).from
    · -- Of the two operators that divide, only one has a compound assignment.
      have division : op = .div := by
        cases op <;> cases found <;> simp at divides
        rfl
      subst division
      exact Expr.Raises.divided.from

end

/-! ### Faults of runs -/

open Evaluating Running

variable [Sink]

theorem yields_ofResult {result : Except Fault α} {blamed : Fault → Prop}
    (h : ∀ fault, result = .error fault → blamed fault) :
    Process.Yields (fun _ => True) blamed (evaluate (ofResult result)) := by
  rw [evaluate_ofResult]
  cases result with
  | ok a => exact .pure trivial
  | error fault => exact .fail (h fault rfl)

theorem yields_fetch {n : String} {p : Position} {blamed : Fault → Prop}
    (h : blamed (.broken (.undefined n) (some p))) :
    Process.Yields (fun _ => True) blamed (evaluate (fetch n p)) where
  of_done _ := trivial
  of_failed {s _ _} run := by
    unfold evaluate fetch Scopes.lookup at run
    cases found : s.scopes.get? n with
    | some value =>
      rw [found] at run
      cases run
    | none =>
      rw [found] at run
      cases run
      exact h

theorem yields_store {n : String} {value : Value} {p : Position} {blamed : Fault → Prop}
    (h : blamed (.broken (.undefined n) (some p))) :
    Process.Yields (fun _ => True) blamed (evaluate (store n value p)) where
  of_done _ := trivial
  of_failed {s _ _} run := by
    unfold evaluate store Scopes.assign at run
    cases found : s.scopes.assign? n value with
    | some scopes =>
      rw [found] at run
      cases run
    | none =>
      rw [found] at run
      cases run
      exact h

private theorem yields_update (op : UpdateOp) (target : Expr) (before : Bool) (p : Position) :
    Process.Yields (fun _ => True) (Fault.From (Expr.update op target before p).nodes)
      (evaluate (Expr.update op target before p).eval) := by
  obtain ⟨n, q, rfl⟩ | other := target.name_or_other
  · rw [Expr.evaluate_update_name]
    apply (yields_fetch Expr.Raises.updatedName.from).bind
    intro current _
    apply (yields_ofResult fun _ => from_update).bind
    intro result _
    apply (yields_store Expr.Raises.updatedName.from).bind
    intro _ _
    exact .pure trivial
  · rw [Expr.evaluate_update_other other]
    exact .fail Expr.Raises.updatedOther.from

private theorem yields_assign (target : Expr) (op : AssignOp) {value : Expr} (p : Position)
    (h : Process.Yields (fun _ => True) (Fault.From (Expr.assign target op value p).nodes)
      (evaluate value.eval)) :
    Process.Yields (fun _ => True) (Fault.From (Expr.assign target op value p).nodes)
      (evaluate (Expr.assign target op value p).eval) := by
  obtain ⟨n, q, rfl⟩ | other := target.name_or_other
  · have stored : ∀ result : Value, Process.Yields (fun _ => True)
        (Fault.From (Expr.assign (.name n q) op value p).nodes)
        (evaluate (store n result p) >>= fun _ => Pure.pure result) := by
      intro result
      apply (yields_store Expr.Raises.assignedName.from).bind
      intro _ _
      exact .pure trivial
    rw [Expr.evaluate_assign_name]
    apply h.bind
    intro right _
    split
    · exact stored right
    · apply (yields_fetch Expr.Raises.assignedName.from).bind
      intro current _
      apply (yields_ofResult fun _ => from_assigned).bind
      intro result _
      exact stored result
  · rw [Expr.evaluate_assign_other other]
    exact .fail Expr.Raises.assignedOther.from

mutual

theorem Expr.yields_eval (e : Expr) :
    Process.Yields (fun _ => True) (Fault.From e.nodes) (evaluate e.eval) := by
  cases e with
  | binary left op right p =>
    rw [Expr.evaluate_binary]
    apply (left.yields_eval.wider (by simp [Expr.nodes])).bind
    intro value _
    split
    · exact .pure trivial
    · apply (right.yields_eval.wider (by simp [Expr.nodes])).bind
      intro value' _
      exact yields_ofResult fun _ => from_binary
  | unary op operand p =>
    rw [Expr.evaluate_unary]
    apply (operand.yields_eval.wider (by simp [Expr.nodes])).bind
    intro value _
    exact yields_ofResult fun _ => from_unary
  | update op target before p => exact yields_update op target before p
  | assign target op value p =>
    apply yields_assign
    exact value.yields_eval.wider (by simp [Expr.nodes])
  | call callee arguments p =>
    rw [Expr.eval, evaluate_throw]
    exact .fail Expr.Raises.called.from
  | literal value p =>
    rw [Expr.eval]
    exact .pure trivial
  | name n p =>
    rw [Expr.eval]
    exact yields_fetch Expr.Raises.named.from
  | array items p =>
    rw [Expr.evaluate_array]
    apply ((Expr.yields_evalAll items).wider (by simp [Expr.nodes])).bind
    intro values _
    exact .pure trivial

theorem Expr.yields_evalAll (es : List Expr) :
    Process.Yields (fun _ => True) (Fault.From (Expr.nodesAll es))
      (evaluate (Expr.evalAll es)) := by
  cases es with
  | nil => exact .pure trivial
  | cons e es =>
    rw [Expr.evaluate_cons]
    apply (e.yields_eval.wider (by simp [Expr.nodesAll])).bind
    intro value _
    apply ((Expr.yields_evalAll es).wider (by simp [Expr.nodesAll])).bind
    intro values _
    exact .pure trivial

end

theorem yields_normal {signals : List Flow} {blamed : Fault → Prop} (value : Value) :
    Process.Yields (Flow.From signals) blamed (Pure.pure (.normal value) : Running Flow) :=
  .pure (.inl ⟨value, rfl⟩)

private theorem yields_define {blamed : Fault → Prop} (n : String) (value : Value) :
    Process.Yields (fun _ => True) blamed (Running.define n value) where
  of_done _ := trivial
  of_failed run := nomatch run

private theorem yields_write {nodes : List Expr} (text : String) :
    Process.Yields (fun _ => True) (Fault.Within nodes) (write text) where
  of_done _ := trivial
  of_failed {s _ _} run := by
    unfold write at run
    split at run <;> cases run
    exact .inr ⟨_, rfl⟩

private theorem yields_inScope {good : α → Prop} {blamed : Fault → Prop} {run : Running α}
    (h : Process.Yields good blamed run) : Process.Yields good blamed (inScope run) where
  of_done {s a t} ends := by
    unfold inScope at ends
    cases inside : run { s with scopes := s.scopes.push } with
    | done b u =>
      rw [inside] at ends
      cases ends
      exact h.of_done inside
    | failed fault u | endless =>
      rw [inside] at ends
      cases ends
  of_failed {s e t} ends := by
    unfold inScope at ends
    cases inside : run { s with scopes := s.scopes.push } with
    | failed fault u =>
      rw [inside] at ends
      cases ends
      exact h.of_failed inside
    | done b u | endless =>
      rw [inside] at ends
      cases ends

private theorem yields_repeatWhile {test : Running Value} {body : Running Flow} {good : Flow → Prop}
    {signals : List Flow} {blamed : Fault → Prop} (h : Process.Yields (fun _ => True) blamed test)
    (k : Process.Yields good blamed body) (rounds : Nat) (value : Value) :
    Process.Yields (Flow.From signals) blamed (repeatWhile test body rounds value) := by
  induction rounds generalizing value with
  | zero => exact .endless
  | succ rounds ih =>
    unfold repeatWhile
    apply h.bind
    intro holds _
    split
    · apply k.bind
      intro flow _
      cases flow with
      | normal value => exact ih value
      | next p => exact ih value
      | leave p => exact yields_normal value
    · exact yields_normal value

mutual

/-- Every fault of a statement was raised by one of its nodes or by the output, and every signal it
ends with stands in it outside of its loops. -/
theorem Stmt.yields_exec (rounds : Nat) (s : Stmt) :
    Process.Yields (Flow.From s.signals) (Fault.Within s.nodes) (s.exec rounds) := by
  cases s with
  | declare name value p =>
    have defined : ∀ v, Process.Yields (Flow.From [])
        (Fault.Within (Stmt.declare name value p).nodes)
        (Running.define name v >>= fun _ => Pure.pure (.normal v)) :=
      fun v => (yields_define name v).bind fun _ _ => yields_normal v
    cases value with
    | none =>
      rw [Stmt.exec_declare_none]
      exact defined .null
    | some e =>
      rw [Stmt.exec_declare_some]
      exact (e.yields_eval.within (by simp [Stmt.nodes])).bind fun v _ => defined v
  | expr e =>
    rw [Stmt.exec]
    apply (e.yields_eval.within (by simp [Stmt.nodes])).bind
    intro value _
    exact yields_normal value
  | print arguments p =>
    rw [Stmt.exec]
    apply ((Expr.yields_evalAll arguments).within (by simp [Stmt.nodes])).bind
    intro values _
    apply (yields_write _).bind
    intro _ _
    exact yields_normal _
  | branch test consequent alternate =>
    rw [Stmt.exec_branch]
    apply (test.yields_eval.within (by simp [Stmt.nodes])).bind
    intro holds _
    split
    · exact (consequent.yields_exec rounds).part (by simp [Stmt.signals]) (by simp [Stmt.nodes])
    · cases alternate with
      | none => exact yields_normal _
      | some s =>
        exact (s.yields_exec rounds).part (by simp [Stmt.signals, Stmt.signalsElse])
          (by simp [Stmt.nodes, Stmt.nodesElse])
  | loop test body =>
    rw [Stmt.exec]
    apply yields_repeatWhile (test.yields_eval.within (by simp [Stmt.nodes]))
    exact (body.yields_exec rounds).part (List.Subset.refl _) (by simp [Stmt.nodes])
  | block body =>
    rw [Stmt.exec]
    exact yields_inScope (Stmt.yields_execAll rounds body .null)
  | leave p | next p =>
    rw [Stmt.exec]
    exact .pure (.inr (by simp [Stmt.signals]))

theorem Stmt.yields_execAll (rounds : Nat) (body : List Stmt) (value : Value) :
    Process.Yields (Flow.From (Stmt.signalsAll body)) (Fault.Within (Stmt.nodesAll body))
      (Stmt.execAll rounds value body) := by
  cases body with
  | nil => exact yields_normal value
  | cons s body =>
    rw [Stmt.execAll]
    apply ((s.yields_exec rounds).part (List.Subset.refl _) (by simp [Stmt.nodesAll])).bind
    intro flow origin
    have rest := Stmt.yields_execAll rounds body
    cases flow with
    | normal value => exact (rest value).part (by simp [Stmt.signalsAll]) (by simp [Stmt.nodesAll])
    | leave p | next p =>
      obtain ⟨value, impossible⟩ | signal := origin
      · cases impossible
      · exact .pure (.inr (by simp [Stmt.signalsAll, signal]))

end

def Flow.stray? : Flow → Option Fault
  | .normal _ => none
  | .leave p => some (.broken (.outsideLoop Keyword.vaiVayoRokki.spelling) (some p))
  | .next p => some (.broken (.outsideLoop Keyword.aghiBadhVai.spelling) (some p))

theorem Program.yields_exec (rounds : Nat) (program : Program) :
    Process.Yields (fun _ => True)
      (fun fault => fault.Within (Stmt.nodesAll program) ∨
        ∃ flow ∈ Stmt.signalsAll program, flow.stray? = some fault)
      (program.exec rounds) := by
  unfold Program.exec
  apply ((Stmt.yields_execAll rounds program .null).mono (fun _ origin => origin)
    fun _ => .inl).bind
  intro flow origin
  cases flow with
  | normal value => exact .pure trivial
  | leave p | next p =>
    obtain ⟨value, impossible⟩ | signal := origin
    · cases impossible
    · exact .fail (.inr ⟨_, signal, rfl⟩)

end DaiScript
