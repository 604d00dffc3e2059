import Mathlib
import DaiScript.Number.Nearest
import DaiScript.Number.Shortest

/-! Which fractions a number is the nearest to. Around each finite number there is an interval, half
a place wide on both sides, or a quarter below a power of two; its ends belong to it if the
significand is even. All that lies inside is read as the number, and the digits that are found for
it lie inside. -/
namespace DaiScript.Number

/-! ### Rounding to the nearest -/

theorem roundDiv_eq {a b m : Nat} (positive : 0 < b) (low : 2 * (m * b) ≤ 2 * a + b)
    (high : 2 * a ≤ 2 * (m * b) + b)
    (even : 2 * (m * b) = 2 * a + b ∨ 2 * a = 2 * (m * b) + b → m % 2 = 0) : roundDiv a b = m := by
  have whole := Nat.div_add_mod' a b
  have small := Nat.mod_lt a positive
  unfold roundDiv
  generalize a / b = floor at *
  generalize a % b = rest at *
  have least : floor ≤ m := by
    by_contra above
    have := Nat.mul_le_mul_right b (Nat.lt_of_not_le above)
    rw [Nat.succ_mul] at this
    omega
  have most : m ≤ floor + 1 := by
    by_contra above
    have := Nat.mul_le_mul_right b (Nat.lt_of_not_le above)
    rw [Nat.succ_mul, Nat.succ_mul] at this
    omega
  obtain rfl | rfl : m = floor ∨ m = floor + 1 := by omega
  · grind
  · rw [Nat.succ_mul] at *
    grind

theorem nearestUnits_eq {a b e m : Nat} (leading : e = 0 ∨ 2 ^ (52 + e) ≤ a / b)
    (bound : a / b < 2 ^ (53 + e)) (rounded : roundDiv a (b * 2 ^ e) = m) :
    nearestUnits a b = min (e * 2 ^ 52 + m) infinite := by
  have shift : (a / b).log2 - 52 = e := by
    obtain rfl | leading := leading
    · by_cases none : a / b = 0
      · simp [none]
      · have := (Nat.log2_lt none).mpr bound
        omega
    · have some : a / b ≠ 0 := by
        have := Nat.two_pow_pos (52 + e)
        omega
      have := (Nat.log2_eq_iff some).mpr ⟨leading, by rwa [Nat.add_right_comm]⟩
      omega
  simp only [nearestUnits, Nat.pow_eq, shift, rounded]

/-- How far below a significand it is still the nearest, in quarters of a place. -/
def reachBelow (m e : Nat) : Nat := if m = 2 ^ 52 ∧ 0 < e then 1 else 2

theorem reachBelow_le (m e : Nat) : reachBelow m e ≤ 2 := by
  unfold reachBelow
  split <;> omega

/-- `a / b` lies around `m * 2 ^ e`: closer to it than to the next ones of 53 places, or halfway if
`m` is even. -/
structure Around (m e a b : Nat) : Prop where
  low : 4 * (m * (b * 2 ^ e)) ≤ 4 * a + reachBelow m e * (b * 2 ^ e)
  high : 4 * a ≤ 4 * (m * (b * 2 ^ e)) + 2 * (b * 2 ^ e)
  even : 4 * (m * (b * 2 ^ e)) = 4 * a + reachBelow m e * (b * 2 ^ e) ∨
    4 * a = 4 * (m * (b * 2 ^ e)) + 2 * (b * 2 ^ e) → m % 2 = 0

namespace Around

variable {m e a b : Nat} (around : Around m e a b) (positive : 0 < b)
include around positive

theorem roundDiv_eq : roundDiv a (b * 2 ^ e) = m := by
  obtain ⟨low, high, even⟩ := around
  have reach := Nat.mul_le_mul_right (b * 2 ^ e) (reachBelow_le m e)
  apply Number.roundDiv_eq (Nat.mul_pos positive (Nat.two_pow_pos e))
  · omega
  · omega
  · intro tie
    apply even
    omega

private theorem div_lt (small : m < 2 ^ 53) : a / b < 2 ^ (53 + e) := by
  have high := around.high
  have place : 0 < b * 2 ^ e := Nat.mul_pos positive (Nat.two_pow_pos e)
  have most := Nat.mul_le_mul_right (b * 2 ^ e) (Nat.succ_le_of_lt small)
  rw [Nat.div_lt_iff_lt_mul positive, Nat.pow_add, Nat.mul_assoc, Nat.mul_comm (2 ^ e)]
  rw [Nat.succ_mul] at most
  omega

/-- Below a power of two, where the places are half as wide, the power itself is rounded to. -/
theorem nearestUnits_of_lt (shifted : e ≠ 0) (normal : 2 ^ 52 ≤ m) (below : a / b < 2 ^ (52 + e)) :
    nearestUnits a b = min (e * 2 ^ 52 + m) infinite := by
  obtain ⟨e, rfl⟩ := Nat.exists_eq_add_one_of_ne_zero shifted
  have double : b * 2 ^ (e + 1) = 2 * (b * 2 ^ e) := by
    rw [Nat.pow_succ]
    ring
  have place : 0 < b * 2 ^ e := Nat.mul_pos positive (Nat.two_pow_pos e)
  have under : a < 2 ^ 52 * (2 * (b * 2 ^ e)) := by
    rwa [Nat.div_lt_iff_lt_mul positive, Nat.pow_add, Nat.mul_assoc,
      Nat.mul_comm (2 ^ (e + 1)), double]
      at below
  obtain ⟨low, -, -⟩ := around
  rw [double] at low
  have reach := Nat.mul_le_mul_right (2 * (b * 2 ^ e)) (reachBelow_le m (e + 1))
  obtain rfl : m = 2 ^ 52 := by
    by_contra other
    have := Nat.mul_le_mul_right (2 * (b * 2 ^ e)) (Nat.lt_of_le_of_ne normal (Ne.symm other))
    rw [Nat.succ_mul] at this
    omega
  rw [reachBelow, if_pos ⟨rfl, e.succ_pos⟩] at low
  have leading : 2 ^ (52 + e) ≤ a / b := by
    rw [Nat.le_div_iff_mul_le positive, Nat.pow_add, Nat.mul_assoc, Nat.mul_comm (2 ^ e)]
    omega
  have rounded : roundDiv a (b * 2 ^ e) = 2 ^ 53 := by
    apply Number.roundDiv_eq place
    · omega
    · omega
    · omega
  have carry : e * 2 ^ 52 + 2 ^ 53 = (e + 1) * 2 ^ 52 + 2 ^ 52 := by omega
  rw [nearestUnits_eq (.inr leading) (by rwa [Nat.add_assoc 52 1 e, Nat.add_comm 1 e])
    rounded, carry]

theorem nearestUnits_eq (small : m < 2 ^ 53) (normal : e = 0 ∨ 2 ^ 52 ≤ m) :
    nearestUnits a b = min (e * 2 ^ 52 + m) infinite := by
  -- Only a fraction short of a power of two has its leading place, and so its shift, one lower.
  by_cases leading : e = 0 ∨ 2 ^ (52 + e) ≤ a / b
  · exact Number.nearestUnits_eq leading (around.div_lt positive small)
      (around.roundDiv_eq positive)
  · rw [not_or, Nat.not_le] at leading
    exact around.nearestUnits_of_lt positive leading.1 (normal.resolve_left leading.1) leading.2

end Around

/-! ### The interval around a number -/

theorem magnitude_eq (n : Number) : n.magnitude = n.exponent * 2 ^ 52 + n.significand := by
  simp only [exponent, significand, Nat.pow_eq]
  split <;> omega

private theorem significand_lt (n : Number) : n.significand < 2 ^ 53 := by
  simp only [significand, Nat.pow_eq]
  split <;> omega

theorem exponent_eq_zero_or (n : Number) : n.exponent = 0 ∨ 2 ^ 52 ≤ n.significand := by
  simp only [exponent, significand, Nat.pow_eq]
  split <;> omega

theorem significand_pos {n : Number} (some : n.magnitude ≠ 0) : 0 < n.significand := by
  have := n.magnitude_eq
  have := n.exponent_eq_zero_or
  omega

theorem isFinite_iff {n : Number} :
    n.isNaN = false ∧ n.isInfinite = false ↔ n.magnitude < infinite := by
  simp only [isNaN, isInfinite, decide_eq_false_iff_not, beq_eq_false_iff_ne]
  omega

def step (n : Number) : Nat := 2 ^ (n.exponent - 1076) * 5 ^ n.places

theorem step_pos (n : Number) : 0 < n.step := by
  unfold step
  positivity

private theorem ten_pow_mul_two_pow {p e s t : Nat} (sum : p + e = s + (2 + t)) :
    10 ^ p * 2 ^ e = 4 * (2 ^ s * 5 ^ p) * Nat.pow 2 t := by
  calc 10 ^ p * 2 ^ e
      = 5 ^ p * 2 ^ (p + e) := by rw [Nat.pow_add, ← Nat.mul_assoc, ← Nat.mul_pow]
    _ = 5 ^ p * (2 ^ s * (2 ^ 2 * 2 ^ t)) := by rw [sum, Nat.pow_add, Nat.pow_add]
    _ = 4 * (2 ^ s * 5 ^ p) * 2 ^ t := by ring

private theorem place_eq (n : Number) :
    10 ^ n.places * 2 ^ n.exponent = 4 * n.step * Nat.pow 2 1074 := by
  apply ten_pow_mul_two_pow
  simp only [places]
  omega

theorem rounding_eq (n : Number) :
    n.rounding = ⟨(4 * n.significand - reachBelow n.significand n.exponent) * n.step,
      4 * n.significand * n.step, (4 * n.significand + 2) * n.step, n.significand % 2 == 0⟩ :=
  rfl

theorem Rounding.contains_iff {r : Rounding} {x : Nat} :
    r.contains x ↔ r.low ≤ x ∧ x ≤ r.high ∧ (r.low = x ∨ x = r.high → r.closed) := by
  simp only [contains]
  split <;> grind

private theorem Around.of_quarters {m e b x quarter t : Nat}
    (place : b * 2 ^ e = 4 * quarter * Nat.pow 2 t)
    (low : 4 * m * quarter ≤ x + reachBelow m e * quarter) (high : x ≤ (4 * m + 2) * quarter)
    (even : 4 * m * quarter = x + reachBelow m e * quarter ∨ x = (4 * m + 2) * quarter →
      m % 2 = 0) :
    Around m e (x * Nat.pow 2 t) b := by
  have positive : 0 < Nat.pow 2 t := Nat.two_pow_pos t
  generalize Nat.pow 2 t = unit at *
  have cancel : 0 < 4 * unit := by omega
  have value : 4 * (m * (b * 2 ^ e)) = 4 * m * quarter * (4 * unit) := by
    rw [place]
    ring
  have below : 4 * (x * unit) + reachBelow m e * (b * 2 ^ e) =
      (x + reachBelow m e * quarter) * (4 * unit) := by
    rw [place]
    ring
  have above : 4 * (m * (b * 2 ^ e)) + 2 * (b * 2 ^ e) = (4 * m + 2) * quarter * (4 * unit) := by
    rw [place]
    ring
  have inside : 4 * (x * unit) = x * (4 * unit) := by ring
  refine ⟨?_, ?_, ?_⟩
  · rw [value, below]
    exact Nat.mul_le_mul_right _ low
  · rw [inside, above]
    exact Nat.mul_le_mul_right _ high
  · rw [above, value, below, inside, Nat.mul_left_inj cancel.ne', Nat.mul_left_inj cancel.ne']
    exact even

private theorem around_of_contains {n : Number} {x : Nat} (inside : n.rounding.contains x) :
    Around n.significand n.exponent (x * Nat.pow 2 1074) (10 ^ n.places) := by
  rw [Rounding.contains_iff, rounding_eq] at inside
  obtain ⟨low, high, even⟩ := inside
  simp only [Nat.sub_mul, beq_iff_eq] at low even
  apply Around.of_quarters n.place_eq
  · omega
  · exact high
  · intro tie
    omega

theorem nearest_of_contains {n : Number} {x : Nat} (finite : n.magnitude < infinite)
    (inside : n.rounding.contains x) : nearest x (10 ^ n.places) = ofParts false n.magnitude := by
  have units := (around_of_contains inside).nearestUnits_eq (Nat.pow_pos (by decide))
    n.significand_lt n.exponent_eq_zero_or
  rw [← magnitude_eq, Nat.min_eq_left finite.le] at units
  rw [nearest, units]

/-! ### The search for the fewest digits -/

theorem contains_value {n : Number} (some : n.magnitude ≠ 0) :
    n.rounding.contains n.rounding.value := by
  have positive := n.step_pos
  have some := significand_pos some
  rw [Rounding.contains_iff, rounding_eq]
  have reach : 0 < reachBelow n.significand n.exponent := by
    unfold reachBelow
    split <;> decide
  have low : (4 * n.significand - reachBelow n.significand n.exponent) * n.step <
      4 * n.significand * n.step := Nat.mul_lt_mul_of_pos_right (by omega) positive
  have high : 4 * n.significand * n.step < (4 * n.significand + 2) * n.step :=
    Nat.mul_lt_mul_of_pos_right (by omega) positive
  exact ⟨low.le, high.le, fun tie => (tie.elim low.ne high.ne).elim⟩

private theorem not_contains_zero {n : Number} (some : n.magnitude ≠ 0) :
    ¬ n.rounding.contains 0 := by
  have positive := n.step_pos
  have some := significand_pos some
  have reach := reachBelow_le n.significand n.exponent
  rw [Rounding.contains_iff, rounding_eq]
  intro inside
  have : 0 < (4 * n.significand - reachBelow n.significand n.exponent) * n.step :=
    Nat.mul_pos (by omega) positive
  exact this.not_ge inside.1

private theorem Rounding.contains_of_onGrid {r : Rounding} {grid steps : Nat}
    (h : r.onGrid grid = some steps) :
    r.contains (steps * grid) := by
  simp only [onGrid, ← Nat.succ_mul] at h
  grind

theorem Rounding.contains_coarsest {r : Rounding} (h : r.contains r.value) (places : Nat) :
    r.contains ((r.coarsest places).1 * 10 ^ (r.coarsest places).2) := by
  induction places with
  | zero => simpa [coarsest] using h
  | succ places ih =>
    rw [coarsest]
    split
    · next steps found => exact contains_of_onGrid found
    · exact ih

theorem coarsest_pos {n : Number} (some : n.magnitude ≠ 0) (places : Nat) :
    0 < (n.rounding.coarsest places).1 := by
  by_contra none
  have inside := Rounding.contains_coarsest (contains_value some) places
  rw [Nat.eq_zero_of_not_pos none, Nat.zero_mul] at inside
  exact not_contains_zero some inside

/-! ### Equal fractions -/

section

variable {k : Nat} (positive : 0 < k)
include positive

private theorem roundDiv_mul_right (a b : Nat) : roundDiv (a * k) (b * k) = roundDiv a b := by
  have twice : 2 * (a % b * k) = 2 * (a % b) * k := by rw [Nat.mul_assoc]
  simp only [roundDiv, Nat.mul_div_mul_right _ _ positive, Nat.mul_mod_mul_right, twice,
    Nat.mul_lt_mul_right positive]

private theorem nearestUnits_mul_right (a b : Nat) :
    nearestUnits (a * k) (b * k) = nearestUnits a b := by
  simp only [nearestUnits, Nat.mul_div_mul_right _ _ positive, Nat.mul_right_comm b k,
    roundDiv_mul_right positive]

theorem nearest_mul_right (a b : Nat) : nearest (a * k) (b * k) = nearest a b := by
  rw [nearest, nearest, Nat.mul_right_comm, nearestUnits_mul_right positive]

end

end DaiScript.Number
