import DaiScript.Proofs.Words
import DaiScript.Value.Operation

/-! When values are equal. Equality goes through arrays to the numbers inside them, and a NaN at any
depth makes a value differ from all values, itself included. Where no NaN is inside, equality is an
equivalence. -/
namespace DaiScript.Value

/-! ### Arrays -/

theorem sameItems_iff (as bs : List Value) :
    sameItems as bs = true ↔ List.Forall₂ (fun a b => a.same b = true) as bs := by
  induction as generalizing bs with
  | nil => cases bs <;> simp [sameItems]
  | cons a as ih => cases bs <;> simp [sameItems, ih]

private theorem same_array_iff (as bs : List Value) : (array as).same (array bs) = true ↔
    as.length = bs.length ∧
      ∀ i (h : i < as.length) (k : i < bs.length), as[i].same bs[i] = true := by
  rw [same, sameItems_iff, List.forall₂_iff_get]
  rfl

/-! ### Symmetry and transitivity -/

/-- What holds of equal numbers, of one and the same text, truth value or nothing, and of arrays if
it holds of their items, holds of all equal values. -/
theorem same_induction {motive : (a b : Value) → a.same b = true → Prop}
    (number : ∀ m n (h : m.same n = true), motive (number m) (number n) h)
    (text : ∀ s, motive (text s) (text s) (beq_self_eq_true s))
    (bool : ∀ b, motive (bool b) (bool b) (beq_self_eq_true b))
    (null : motive null null rfl)
    (array : ∀ as bs (h : sameItems as bs = true),
      List.Forall₂ (fun a b => ∃ h : a.same b = true, motive a b h) as bs →
        motive (array as) (array bs) h) (a b : Value) (h : a.same b = true) : motive a b h := by
  refine @Value.rec (fun a => ∀ b h, motive a b h)
    (fun as => ∀ bs, sameItems as bs = true →
      List.Forall₂ (fun a b => ∃ h : a.same b = true, motive a b h) as bs)
    ?number ?text ?bool ?null ?array ?nil ?cons a b h
  case number =>
    intro m b h
    cases b with
    | number n => exact number m n h
    | text | bool | null | array => cases h
  case text =>
    intro s b h
    cases b with
    | text t =>
      cases eq_of_beq (h : (s == t) = true)
      exact text s
    | number | bool | null | array => cases h
  case bool =>
    intro c b h
    cases b with
    | bool d =>
      cases eq_of_beq (h : (c == d) = true)
      exact bool c
    | number | text | null | array => cases h
  case null =>
    intro b h
    cases b with
    | null => exact null
    | number | text | bool | array => cases h
  case array =>
    intro as items b h
    cases b with
    | array bs => exact array as bs h (items bs h)
    | number | text | bool | null => cases h
  case nil =>
    intro bs h
    cases bs with
    | nil => exact .nil
    | cons b bs => cases h
  case cons =>
    intro a as item items bs h
    cases bs with
    | nil => cases h
    | cons b bs =>
      rw [sameItems, Bool.and_eq_true] at h
      exact .cons ⟨h.1, item b h.1⟩ (items bs h.2)

variable {a b c : Value}

theorem same_symm (h : a.same b = true) : b.same a = true := by
  induction a, b, h using same_induction with
  | number m n h => exact (n.same_comm m).trans h
  | text s => exact beq_self_eq_true s
  | bool c => exact beq_self_eq_true c
  | null => rfl
  | array as bs h items =>
    rw [same, sameItems_iff]
    exact items.flip.imp fun _ _ item => item.2

theorem same_comm (a b : Value) : a.same b = b.same a := by
  rw [Bool.eq_iff_iff]
  exact ⟨same_symm, same_symm⟩

theorem same_trans (h : a.same b = true) (k : b.same c = true) : a.same c = true := by
  induction a, b, h using same_induction generalizing c with
  | number m n h =>
    cases c with
    | number l => exact Number.same_trans h k
    | text | bool | null | array => cases k
  | text s | bool b | null => exact k
  | array as bs h items =>
    cases c with
    | array cs =>
      rw [same, sameItems_iff] at k ⊢
      clear h
      induction items generalizing cs with
      | nil => exact k
      | cons item _ ih =>
        obtain ⟨-, onward⟩ := item
        cases k with
        | cons first rest => exact .cons (onward first) (ih _ rest)
    | number | text | bool | null => cases k

theorem typeName_eq_of_same (h : a.same b = true) : a.typeName = b.typeName := by
  induction a, b, h using same_induction <;> rfl

/-! ### Values that equal themselves -/

inductive Inside (v : Value) : Value → Prop
  | self : Inside v v
  | item {w : Value} {items : List Value} : w ∈ items → Inside v w → Inside v (array items)

def Numeric (v : Value) : Prop := ∀ n, Inside (number n) v → n.isNaN = false

private theorem numeric_array {items : List Value} :
    (array items).Numeric ↔ ∀ item ∈ items, item.Numeric := by
  constructor
  · intro h item member n inside
    exact h n (.item member inside)
  · intro h n inside
    cases inside with
    | item member inside => exact h _ member n inside

mutual

theorem same_self_iff (a : Value) : a.same a = true ↔ a.Numeric := by
  cases a with
  | number m =>
    rw [same, Number.same_self]
    constructor
    · rintro number n ⟨⟩
      simpa using number
    · intro h
      simp [h m .self]
  | text s | bool b | null =>
    refine iff_of_true (by simp [same]) ?_
    rintro n ⟨⟩
  | array items =>
    rw [same, numeric_array]
    exact sameItems_self_iff items

theorem sameItems_self_iff (items : List Value) :
    sameItems items items = true ↔ ∀ item ∈ items, item.Numeric := by
  cases items with
  | nil => simp [sameItems]
  | cons item items =>
    rw [sameItems, Bool.and_eq_true, List.forall_mem_cons, same_self_iff item,
      sameItems_self_iff items]

end

/-- Equality of values is symmetric and transitive, and a value is equal to itself unless a NaN is
inside it. Values of different kinds are never equal; arrays are equal item by item; and numbers are
equal as the machine has it, that is, if neither is NaN and they have the same bits or are both
zeros. The operator for inequality always gives the opposite of the one for equality. -/
theorem same_partialEquivalence :
    (∀ a b : Value, a.same b = b.same a) ∧
    (∀ a b c : Value, a.same b = true → b.same c = true → a.same c = true) ∧
    (∀ a : Value, a.same a = true ↔ ∀ n, Inside (number n) a → n.isNaN = false) ∧
    (∀ a b : Value, a.typeName ≠ b.typeName → a.same b = false) ∧
    (∀ as bs : List Value, (array as).same (array bs) = true ↔ as.length = bs.length ∧
      ∀ i (h : i < as.length) (k : i < bs.length), as[i].same bs[i] = true) ∧
    (∀ m n : Number, (number m).same (number n) = (m.toFloat == n.toFloat) ∧
      ((number m).same (number n) = true ↔
        m.isNaN = false ∧ n.isNaN = false ∧ (m.bits = n.bits ∨ m.isZero ∧ n.isZero))) ∧
    ∀ (a b : Value) (p : Position), binary .equal a b p = .ok (bool (a.same b)) ∧
      binary .notEqual a b p = .ok (bool !(a.same b)) := by
  refine ⟨same_comm, fun _ _ _ => same_trans, same_self_iff, ?_, same_array_iff, ?_,
    fun a b p => ⟨rfl, rfl⟩⟩
  · intro a b kinds
    rw [← Bool.not_eq_true]
    exact fun h => kinds (typeName_eq_of_same h)
  · intro m n
    have bits : m.bits = n.bits ↔ m = n := by
      rw [← Number.mk.injEq]
    exact ⟨Number.same_eq_beq m n, by rw [same, Number.same_iff, bits]⟩

theorem same_partialEquivalence_nested :
    let zero : Value := number (.ofParts false 0)
    let minus : Value := number (.ofParts true 0)
    let a : Value := array [text "x", array [zero, minus]]
    let b : Value := array [text "x", array [minus, minus]]
    let c : Value := array [text "x", array [minus, zero]]
    let v : Value := array [null, array [number .nan]]
    a.same b = true ∧ b.same c = true ∧ a.same c = true ∧ v.same v = false ∧
      (text "0").typeName ≠ zero.typeName ∧ (text "0").same zero = false := by
  intro zero minus a b c v
  obtain ⟨-, trans, self, kinds, -⟩ := same_partialEquivalence
  have first : a.same b = true := by decide +kernel
  have second : b.same c = true := by decide +kernel
  have other : (text "0").typeName ≠ zero.typeName := by decide
  refine ⟨first, second, trans a b c first second, ?_, other, kinds _ _ other⟩
  rw [← Bool.not_eq_true, self v]
  intro numbers
  have deep : Inside (number .nan) v := .item (List.mem_cons_of_mem _ List.mem_cons_self)
    (.item List.mem_cons_self .self)
  exact absurd (numbers .nan deep) (by decide)

end DaiScript.Value
