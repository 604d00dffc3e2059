/-! Numbers are binary64 data, held as their bits: sign, order and equality are then facts about
words, and a finite number is a whole multiple of the least positive one. Only the last bit of a
sum, product, quotient or power is left to the machine. -/
namespace DaiScript

structure Number where
  bits : UInt64
  deriving DecidableEq, Repr

namespace Number

def isNegative (n : Number) : Bool :=
  Nat.pow 2 63 ≤ n.bits.toNat

/-- The bits without the sign. They are ordered as the absolute values are. -/
def magnitude (n : Number) : Nat :=
  n.bits.toNat % Nat.pow 2 63

def ofParts (negative : Bool) (magnitude : Nat) : Number :=
  ⟨UInt64.ofNat ((if negative then Nat.pow 2 63 else 0) + magnitude)⟩

/-- The magnitude of the infinities; those above it belong to no number. -/
def infinite : Nat := 2047 * Nat.pow 2 52

def nan : Number := ofParts false (infinite + Nat.pow 2 51)

def isNaN (n : Number) : Bool :=
  infinite < n.magnitude

def isInfinite (n : Number) : Bool :=
  n.magnitude == infinite

def isZero (n : Number) : Bool :=
  n.magnitude == 0

/-- Significand and exponent of the absolute value of a finite number, which is
`significand * 2 ^ exponent` times the least positive number. -/
def significand (n : Number) : Nat :=
  if n.magnitude < Nat.pow 2 52 then n.magnitude
  else n.magnitude % Nat.pow 2 52 + Nat.pow 2 52

def exponent (n : Number) : Nat :=
  n.magnitude / Nat.pow 2 52 - 1

def units (n : Number) : Nat :=
  n.significand * Nat.pow 2 n.exponent

/-! ### Order and equality -/

/-- Orders the numbers that are not NaN; both zeros have the same key. -/
def key (n : Number) : Int :=
  if n.isNegative then -n.magnitude else n.magnitude

/-- Equality of values: the zeros are equal and a NaN equals nothing. -/
def same (a b : Number) : Bool :=
  !a.isNaN && !b.isNaN && a.key == b.key

def less (a b : Number) : Bool :=
  !a.isNaN && !b.isNaN && a.key < b.key

def atMost (a b : Number) : Bool :=
  !a.isNaN && !b.isNaN && a.key ≤ b.key

theorem same_comm (a b : Number) : a.same b = b.same a := by
  simp only [same, Bool.beq_comm (a := a.key)]
  cases a.isNaN <;> cases b.isNaN <;> rfl

theorem same_self (a : Number) : a.same a = !a.isNaN := by
  simp [same]

theorem same_trans {a b c : Number} (first : a.same b) (second : b.same c) : a.same c := by
  simp_all [same]

/-! ### Arithmetic -/

def negate (n : Number) : Number :=
  ofParts (!n.isNegative) n.magnitude

def toFloat (n : Number) : Float := Float.ofBits n.bits

def ofFloat (x : Float) : Number := ⟨x.toBits⟩

def add (a b : Number) : Number := ofFloat (a.toFloat + b.toFloat)

def sub (a b : Number) : Number := ofFloat (a.toFloat - b.toFloat)

def mul (a b : Number) : Number := ofFloat (a.toFloat * b.toFloat)

def div (a b : Number) : Number := ofFloat (a.toFloat / b.toFloat)

def pow (a b : Number) : Number := ofFloat (a.toFloat ^ b.toFloat)

end Number

end DaiScript
