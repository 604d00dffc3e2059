import DaiScript.Proofs.Eagerness
import DaiScript.Proofs.Execution
import DaiScript.Proofs.Sameness

/-! Equal values look alike and act alike. The only equal numbers with different bits are the two
zeros, which are printed without a sign and hold for false; so equal values have the same text at
any depth, and no program that prints a value, tests it or joins it to a text can tell which of them
it has. -/
namespace DaiScript

open Evaluating Running

/-! ### Texts of numbers -/

namespace Number

variable {m n : Number}

private theorem isZero_eq_of_same (h : m.same n = true) : m.isZero = n.isZero := by
  obtain ⟨-, -, rfl | ⟨zero, zero'⟩⟩ := same_iff.mp h
  · rfl
  · rw [zero, zero']

private theorem render_eq_of_same (h : m.same n = true) :
    Layout.printed.render m = Layout.printed.render n := by
  obtain ⟨-, -, rfl | ⟨zero, zero'⟩⟩ := same_iff.mp h
  · rfl
  · rw [isZero, beq_iff_eq] at zero zero'
    rw [Layout.render_printed_zero zero, Layout.render_printed_zero zero']

theorem finite_or_infinite (number : n.isNaN = false) :
    n.magnitude < infinite ∨ n.magnitude = infinite := by
  rw [isNaN, decide_eq_false_iff_not] at number
  omega

theorem render_infinite (infinity : n.magnitude = infinite) :
    Layout.printed.render n = (if n.isNegative then "-" else "") ++ "Infinity" := by
  simp [Layout.render, isNaN, isInfinite, isZero, infinity, infinite_eq, Layout.printed]

theorem ofText?_render_infinite (infinity : n.magnitude = infinite) :
    ofText? (Layout.printed.render n) = none := by
  rw [render_infinite infinity]
  cases n.isNegative <;> decide +kernel

private theorem same_of_render_eq (number : m.isNaN = false) (number' : n.isNaN = false)
    (h : Layout.printed.render m = Layout.printed.render n) : m.same n = true := by
  obtain finite | infinity := finite_or_infinite number
  · obtain ⟨k, read, equal⟩ := ofText?_render finite
    obtain finite' | infinity' := finite_or_infinite number'
    · obtain ⟨k', read', equal'⟩ := ofText?_render finite'
      rw [h, read'] at read
      cases read
      rw [same_comm] at equal
      exact same_trans equal equal'
    · rw [h, ofText?_render_infinite infinity'] at read
      cases read
  · obtain finite' | infinity' := finite_or_infinite number'
    · obtain ⟨k', read', -⟩ := ofText?_render finite'
      rw [← h, ofText?_render_infinite infinity] at read'
      cases read'
    · have signs : m.isNegative = n.isNegative := by
        rw [render_infinite infinity, render_infinite infinity'] at h
        revert h
        cases m.isNegative <;> cases n.isNegative <;> decide
      rw [eq_iff.mpr ⟨signs, infinity.trans infinity'.symm⟩, same_self, number']
      rfl

end Number

namespace Value

/-! ### Texts and truth of values -/

theorem shownItems_eq (items : List Value) : shownItems items = items.map shown := by
  induction items with
  | nil => rfl
  | cons item items ih => rw [shownItems, ih, List.map_cons]

variable {a b : Value}

theorem shown_eq_of_same (h : a.same b = true) : a.shown = b.shown := by
  induction a, b, h using same_induction with
  | number m n h => exact Number.render_eq_of_same h
  | text s | bool c | null => rfl
  | array as bs h items =>
    have texts : as.map shown = bs.map shown := by
      rw [← List.forall₂_eq_eq_eq, List.forall₂_map_left_iff, List.forall₂_map_right_iff]
      exact items.imp fun _ _ item => item.2
    rw [shown, shown, shownItems_eq, shownItems_eq, texts]

theorem isTruthy_eq_of_same (h : a.same b = true) : a.isTruthy = b.isTruthy := by
  induction a, b, h using same_induction with
  | number m n h => rw [isTruthy, isTruthy, Number.isZero_eq_of_same h]
  | text s | bool c | null => rfl
  | array as bs h items => cases items <;> rfl

theorem add_text_left (w : String) (a : Value) (p : Position) :
    binary .add (text w) a p = .ok (text (w ++ a.shown)) := by
  cases a <;> rfl

theorem add_text_right (a : Value) (w : String) (p : Position) :
    binary .add a (text w) p = .ok (text (a.shown ++ w)) := by
  cases a <;> rfl

end Value

/-! ### Programs -/

/-- From the session `s` both expressions lead to the session `t`, one with the value `a` and the
other with the value `b`. -/
structure Expr.Twins [Sink] (e e' : Expr) (a b : Value) (s t : Session) : Prop where
  left : evaluate e.eval s = .done a t
  right : evaluate e'.eval s = .done b t

namespace Expr.Twins

variable [Sink] {e e' : Expr} {a b : Value} {s t : Session}

theorem binary_left (twins : Twins e e' a b s t) {op : BinaryOp} {right : Expr} {p : Position}
    (decided : Value.shortCircuit? op a = Value.shortCircuit? op b)
    (combined : ∀ {v u}, evaluate right.eval t = .done v u →
      Value.binary op a v p = Value.binary op b v p) :
    evaluate (binary e op right p).eval s = evaluate (binary e' op right p).eval s := by
  rw [evaluate_binary, evaluate_binary, Process.bind_apply, Process.bind_apply, twins.left,
    twins.right]
  dsimp only
  rw [decided]
  cases Value.shortCircuit? op b with
  | some result => rfl
  | none =>
    dsimp only
    rw [Process.bind_apply, Process.bind_apply]
    cases second : evaluate right.eval t with
    | done v u =>
      dsimp only
      rw [combined second]
    | failed fault u | endless => rfl

theorem binary_right (twins : Twins e e' a b s t) {op : BinaryOp} {left : Expr} {p : Position}
    {v : Value} {r : Session} (first : evaluate left.eval r = .done v s)
    (combined : Value.binary op v a p = Value.binary op v b p) :
    evaluate (binary left op e p).eval r = evaluate (binary left op e' p).eval r := by
  rw [evaluate_binary, evaluate_binary, Process.bind_apply, Process.bind_apply, first]
  dsimp only
  cases Value.shortCircuit? op v with
  | some result => rfl
  | none =>
    dsimp only
    rw [Process.bind_apply, Process.bind_apply, twins.left, twins.right]
    dsimp only
    rw [combined]

end Expr.Twins

/-- The sessions in which a loop that starts in the first session comes to its test. -/
inductive Running.Tested [Sink] (test : Running Value) (body : Running Flow) :
    Session → Session → Prop
  | first (s : Session) : Tested test body s s
  | again {s t u w : Session} {holds : Value} {flow : Flow} :
      test s = .done holds t → holds.isTruthy = true → body t = .done flow u →
      (∀ p, flow ≠ .leave p) → Tested test body u w → Tested test body s w

/-- In the session both expressions do the same, or have equal values and lead to the same
session. -/
def Expr.Alike [Sink] (e e' : Expr) (s : Session) : Prop :=
  evaluate e.eval s = evaluate e'.eval s ∨ ∃ a b t, Twins e e' a b s t ∧ a.same b = true

theorem Expr.Alike.of_done [Sink] {e e' : Expr} {s t : Session} {a : Value} (h : Alike e e' s)
    (run : evaluate e.eval s = .done a t) :
    ∃ b, evaluate e'.eval s = .done b t ∧ b.isTruthy = a.isTruthy := by
  obtain same | ⟨a', b, u, twins, equal⟩ := h
  · exact ⟨a, same ▸ run, rfl⟩
  · cases run.symm.trans twins.left
    exact ⟨b, twins.right, (Value.isTruthy_eq_of_same equal).symm⟩

/-- The tests of a loop need to agree only where it comes to them. -/
theorem Running.repeatWhile_congr [Sink] {test test' : Expr} {body : Running Flow} {s : Session}
    (alike : ∀ u, Tested (evaluate test.eval) body s u → test.Alike test' u) (rounds : Nat)
    (value : Value) :
    repeatWhile (evaluate test.eval) body rounds value s =
      repeatWhile (evaluate test'.eval) body rounds value s := by
  induction rounds generalizing s value with
  | zero => rfl
  | succ rounds ih =>
    have here := alike s (.first s)
    unfold repeatWhile
    rw [Process.bind_apply, Process.bind_apply]
    cases run : evaluate test.eval s with
    | failed fault t | endless =>
      obtain same | ⟨_, _, _, twins, -⟩ := here
      · rw [← same, run]
      · cases run.symm.trans twins.left
    | done holds t =>
      obtain ⟨holds', run', truth⟩ := here.of_done run
      rw [run']
      dsimp only
      rw [truth]
      cases passed : holds.isTruthy with
      | false => rfl
      | true =>
        simp only [if_true]
        rw [Process.bind_apply, Process.bind_apply]
        cases ran : body t with
        | failed fault u | endless => rfl
        | done flow u =>
          cases flow with
          | normal value =>
            exact ih (fun w later => alike w (.again run passed ran (by simp) later)) value
          | next p =>
            exact ih (fun w later => alike w (.again run passed ran (by simp) later)) value
          | leave p => rfl

/-- No print, condition or concatenation tells the values apart, whatever expressions they come
from. -/
structure Value.Indistinct [Sink] (a b : Value) : Prop where
  print : ∀ {es es' before after s t},
    evaluate (Expr.evalAll es) s = .done (before ++ a :: after) t →
    evaluate (Expr.evalAll es') s = .done (before ++ b :: after) t → ∀ rounds p,
      (Stmt.print es p).exec rounds s = (Stmt.print es' p).exec rounds s
  branch : ∀ {e e' s t}, Expr.Twins e e' a b s t → ∀ rounds consequent alternate,
    (Stmt.branch e consequent alternate).exec rounds s =
      (Stmt.branch e' consequent alternate).exec rounds s
  not : ∀ {e e' s t}, Expr.Twins e e' a b s t → ∀ p,
    evaluate (Expr.unary .not e p).eval s = evaluate (Expr.unary .not e' p).eval s
  connectLeft : ∀ {e e' s t}, Expr.Twins e e' a b s t →
    ∀ {op : BinaryOp}, op.logical = true → ∀ right p,
    evaluate (Expr.binary e op right p).eval s = evaluate (Expr.binary e' op right p).eval s
  connectRight : ∀ {e e' s t}, Expr.Twins e e' a b s t → ∀ {op : BinaryOp}, op.logical = true →
    ∀ {left v r}, evaluate left.eval r = .done v s → ∀ p,
      evaluate (Expr.binary left op e p).eval r = evaluate (Expr.binary left op e' p).eval r
  joinLeft : ∀ {e e' s t}, Expr.Twins e e' a b s t →
    ∀ {right w u}, evaluate right.eval t = .done (.text w) u → ∀ p,
      evaluate (Expr.binary e .add right p).eval s = evaluate (Expr.binary e' .add right p).eval s
  joinRight : ∀ {e e' s t}, Expr.Twins e e' a b s t →
    ∀ {left w r}, evaluate left.eval r = .done (.text w) s → ∀ p,
      evaluate (Expr.binary left .add e p).eval r = evaluate (Expr.binary left .add e' p).eval r

namespace Value

variable {a b : Value}

private theorem unary_not_eq (truth : a.isTruthy = b.isTruthy) (p : Position) :
    unary .not a p = unary .not b p := by
  rw [unary, unary, truth]

private theorem shortCircuit?_eq (truth : a.isTruthy = b.isTruthy) (op : BinaryOp) :
    shortCircuit? op a = shortCircuit? op b := by
  unfold shortCircuit?
  rw [truth]

private theorem binary_logical_left (truth : a.isTruthy = b.isTruthy) {op : BinaryOp}
    (h : op.logical = true) (v : Value) (p : Position) : binary op a v p = binary op b v p := by
  cases op with
  | and | or => rw [binary, binary, truth]
  | _ => cases h

private theorem binary_logical_right (truth : a.isTruthy = b.isTruthy) {op : BinaryOp}
    (h : op.logical = true) (v : Value) (p : Position) : binary op v a p = binary op v b p := by
  cases op with
  | and | or => rw [binary, binary, truth]
  | _ => cases h

private theorem indistinct_of_same [Sink] (h : a.same b = true) : a.Indistinct b := by
  have text := shown_eq_of_same h
  have truth := isTruthy_eq_of_same h
  constructor
  case print =>
    intro es es' before after s t left right rounds p
    rw [Stmt.exec, Stmt.exec, Process.bind_apply, Process.bind_apply, left, right]
    simp only [List.map_append, List.map_cons, text]
  case branch =>
    intro e e' s t twins rounds consequent alternate
    rw [Stmt.exec_branch, Stmt.exec_branch, Process.bind_apply, Process.bind_apply, twins.left,
      twins.right]
    simp only [truth]
  case not =>
    intro e e' s t twins p
    rw [Expr.evaluate_unary, Expr.evaluate_unary, Process.bind_apply, Process.bind_apply,
      twins.left, twins.right]
    simp only [unary_not_eq truth]
  case connectLeft =>
    intro e e' s t twins op logical right p
    apply twins.binary_left (shortCircuit?_eq truth op)
    intro v u _
    exact binary_logical_left truth logical v p
  case connectRight =>
    intro e e' s t twins op logical left v r first p
    exact twins.binary_right first (binary_logical_right truth logical v p)
  case joinLeft =>
    intro e e' s t twins right w u second p
    apply twins.binary_left rfl
    intro v u' second'
    cases second.symm.trans second'
    rw [add_text_right, add_text_right, text]
  case joinRight =>
    intro e e' s t twins left w r first p
    apply twins.binary_right first
    rw [add_text_left, add_text_left, text]

/-- Equal values have the same text, hold alike as conditions and are of the same kind, and joined
to a text on either side they give the same text; so no print, condition or concatenation tells them
apart, and no loop tells tests apart that have equal values wherever it comes to them. Of numbers
other than NaN, only equal ones have the same text. -/
theorem same_indistinct [Sink] :
    (∀ a b : Value, a.same b = true →
      a.shown = b.shown ∧ a.isTruthy = b.isTruthy ∧ a.typeName = b.typeName ∧
      (∀ (w : String) (p : Position), ∃ joined joined',
        binary .add (text w) a p = .ok (text joined) ∧
        binary .add (text w) b p = .ok (text joined) ∧
        binary .add a (text w) p = .ok (text joined') ∧
        binary .add b (text w) p = .ok (text joined')) ∧
      a.Indistinct b) ∧
    (∀ (test test' : Expr) (body : Stmt) (rounds : Nat) (s : Session),
      (∀ u, Tested (evaluate test.eval) (body.exec rounds) s u → test.Alike test' u) →
        (Stmt.loop test body).exec rounds s = (Stmt.loop test' body).exec rounds s) ∧
    ∀ m n : Number, m.isNaN = false → n.isNaN = false →
      ((number m).shown = (number n).shown ↔ (number m).same (number n) = true) := by
  refine ⟨?_, ?_, ?_⟩
  · intro a b h
    have texts := shown_eq_of_same h
    refine ⟨texts, isTruthy_eq_of_same h, typeName_eq_of_same h, ?_, indistinct_of_same h⟩
    intro w p
    refine ⟨w ++ a.shown, a.shown ++ w, add_text_left w a p, ?_, add_text_right a w p, ?_⟩
    · rw [add_text_left, texts]
    · rw [add_text_right, texts]
  · intro test test' body rounds s alike
    rw [Stmt.exec, Stmt.exec]
    exact repeatWhile_congr alike rounds .null
  · intro m n number number'
    exact ⟨Number.same_of_render_eq number number', shown_eq_of_same⟩

open scoped Buffer

theorem same_indistinct_zeros :
    let a : Value := array [array [number (.ofParts false 0), text "x"]]
    let b : Value := array [array [number (.ofParts true 0), text "x"]]
    let s : Session := ⟨(Scopes.initial.define "a" a).define "b" b, Buffer.empty⟩
    let lekh (name : String) : Stmt := .print [.name name .start] .start
    let clear (name : String) : Stmt :=
      .expr (.assign (.name name .start) .assign (.literal .null .start) .start)
    let body : Stmt := .block [clear "a", clear "b"]
    let m : Number := .ofParts false 1
    let n : Number := .ofParts false 2
    a.same b = true ∧ a.shown = b.shown ∧ (lekh "a").exec 1 s = (lekh "b").exec 1 s ∧
      (Stmt.loop (.name "a" .start) body).exec 2 s = (Stmt.loop (.name "b" .start) body).exec 2 s ∧
      m.isNaN = false ∧ n.isNaN = false ∧ (number m).shown ≠ (number n).shown := by
  intro a b s lekh clear body m n
  obtain ⟨alike, loops, distinct⟩ := same_indistinct
  have equal : a.same b = true := by decide +kernel
  have number : m.isNaN = false := by decide +kernel
  have number' : n.isNaN = false := by decide +kernel
  obtain ⟨texts, -, -, -, indistinct⟩ := alike a b equal
  have left : evaluate (Expr.evalAll [.name "a" .start]) s = .done ([] ++ a :: []) s := rfl
  have right : evaluate (Expr.evalAll [.name "b" .start]) s = .done ([] ++ b :: []) s := rfl
  have looped : (Stmt.loop (.name "a" .start) body).exec 2 s =
      (Stmt.loop (.name "b" .start) body).exec 2 s := by
    apply loops
    intro u tested
    cases tested with
    | first => exact .inr ⟨a, b, s, ⟨rfl, rfl⟩, equal⟩
    | again run _ ran _ later =>
      cases run
      cases ran
      cases later with
      | first => exact .inl rfl
      | again run passed =>
        cases run
        cases passed
  refine ⟨equal, texts, indistinct.print left right 1 .start, looped, number, number', ?_⟩
  rw [ne_eq, distinct m n number number']
  decide +kernel

end Value

end DaiScript
