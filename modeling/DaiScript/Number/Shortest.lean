import DaiScript.Number.Basic

/-! The fewest digits that read back. The decimals that round to a number lie between the middles of
the gaps on its two sides, the ends included if its significand is even. Grids of powers of ten are
tried from coarse to fine; on each, only the two points next to the number can be the nearest one
inside. The finest grid holds the number itself, so the search ends with a decimal that reads
back. -/
namespace DaiScript

/-- A positive decimal: its digits, the first and the last not zero, with the point after the first
digit, times ten to the power `scale`. -/
structure Decimal where
  digits : List Char
  scale : Int
  deriving DecidableEq, Repr

namespace Number

/-- The decimals that round to a number, counted in steps of a power of ten that also counts the
number itself. -/
structure Rounding where
  low : Nat
  value : Nat
  high : Nat
  closed : Bool

namespace Rounding

def contains (r : Rounding) (x : Nat) : Bool :=
  if r.closed then r.low ≤ x && x ≤ r.high else r.low < x && x < r.high

/-- The point of a grid that is nearest to the value and rounds to it, in steps of the grid. Halfway
between two such points the upper one is taken. -/
def onGrid (r : Rounding) (grid : Nat) : Option Nat :=
  let floor := r.value / grid
  let below := floor * grid
  let above := below + grid
  if r.contains above && (!r.contains below || above - r.value ≤ r.value - below) then
    some (floor + 1)
  else if r.contains below then some floor
  else none

/-- Searches the grids `10 ^ places`, `10 ^ (places - 1)`, …: the steps taken and the grid. -/
def coarsest (r : Rounding) : Nat → Nat × Nat
  | 0 => (r.value, 0)
  | places + 1 =>
    match r.onGrid (Nat.pow 10 (places + 1)) with
    | some steps => (steps, places + 1)
    | none => r.coarsest places

end Rounding

/-- Quarters of the last binary place of a finite number are whole counts of `10 ^ -places`. -/
def places (n : Number) : Nat :=
  1076 - n.exponent

/-- The gap below a power of two is half as wide as the gap above, but for the least exponent. -/
def rounding (n : Number) : Rounding :=
  let m := n.significand
  let factor := Nat.pow 2 (n.exponent - 1076) * Nat.pow 5 n.places
  { low := (4 * m - if m = Nat.pow 2 52 ∧ 0 < n.exponent then 1 else 2) * factor
    value := 4 * m * factor
    high := (4 * m + 2) * factor
    closed := m % 2 == 0 }

def dropTrailingZeros (digits : List Char) : List Char :=
  (digits.reverse.dropWhile (· == '0')).reverse

/-- The shortest decimal that reads back as the absolute value of a finite number other than zero,
and of those the nearest to it. -/
def shortest (n : Number) : Decimal :=
  let r := n.rounding
  let (steps, grid) := r.coarsest ((Nat.toDigits 10 r.value).length - 1)
  let digits := Nat.toDigits 10 steps
  { digits := dropTrailingZeros digits
    scale := (digits.length - 1 + grid : Nat) - (n.places : Int) }

end Number

end DaiScript
