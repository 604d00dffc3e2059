import DaiScript.Number.Layout
import DaiScript.Proofs.Rounding
import DaiScript.Proofs.Spans

/-! Numbers as decimal texts. A text of digits, with a point and a power of ten where it has them,
is read as the nearest number. The printed text of a finite number has digits inside the interval
around it, so it is read as that number; only the sign of a zero is not printed. -/
namespace DaiScript

namespace Number

/-! ### Powers of ten -/

def ofScaled (value : Nat) (power : Int) : Number :=
  nearest (value * 10 ^ power.toNat) (10 ^ (-power).toNat)

theorem nearest_pow {value i j : Nat} {power : Int} (h : power = i - j) :
    nearest (value * 10 ^ i) (10 ^ j) = ofScaled value power := by
  obtain ⟨k, rfl, rfl⟩ : ∃ k, i = power.toNat + k ∧ j = (-power).toNat + k :=
    ⟨min i j, by omega, by omega⟩
  rw [Nat.pow_add, Nat.pow_add, ← Nat.mul_assoc,
    nearest_mul_right (Nat.pow_pos (by decide)), ofScaled]

private theorem ofScaled_mul_pow (value zeros : Nat) (power : Int) :
    ofScaled (value * 10 ^ zeros) power = ofScaled value (power + zeros) := by
  rw [ofScaled, Nat.mul_assoc, ← Nat.pow_add]
  apply nearest_pow
  omega

/-! ### Digits -/

theorem digitsValue_append_zeros (digits : List Char) (zeros : Nat) :
    digitsValue (digits ++ List.replicate zeros '0') = digitsValue digits * 10 ^ zeros := by
  change Nat.ofDigitChars 10 _ 0 = Nat.ofDigitChars 10 _ 0 * _
  rw [Nat.ofDigitChars_append, Nat.ofDigitChars_replicate_zero, Nat.mul_comm]

private theorem digitsValue_zeros_append (digits : List Char) (zeros : Nat) :
    digitsValue (List.replicate zeros '0' ++ digits) = digitsValue digits := by
  change Nat.ofDigitChars 10 _ 0 = Nat.ofDigitChars 10 _ 0
  rw [Nat.ofDigitChars_append, Nat.ofDigitChars_replicate_zero, Nat.mul_zero]

theorem digitsValue_toDigits (value : Nat) : digitsValue (Nat.toDigits 10 value) = value :=
  Nat.ofDigitChars_ten_toDigits

private theorem exists_dropTrailingZeros (digits : List Char) :
    ∃ zeros, digits = dropTrailingZeros digits ++ List.replicate zeros '0' := by
  have same : digits.reverse.takeWhile (· == '0') =
      List.replicate (digits.reverse.takeWhile (· == '0')).length '0' := by
    apply List.eq_replicate_of_mem
    intro c member
    simpa using List.mem_takeWhile_imp member
  refine ⟨(digits.reverse.takeWhile (· == '0')).length, ?_⟩
  apply List.reverse_injective
  rw [dropTrailingZeros, List.reverse_append, List.reverse_reverse, List.reverse_replicate, ← same,
    List.takeWhile_append_dropWhile]

end Number

/-! ### Texts of digits -/

theorem isDigit_append {front back : List Char} (h : ∀ c ∈ front, c.isDigit = true)
    (h' : ∀ c ∈ back, c.isDigit = true) : ∀ c ∈ front ++ back, c.isDigit = true := by
  simpa [or_imp, forall_and] using ⟨h, h'⟩

theorem isDigit_zeros {k : Nat} : ∀ c ∈ List.replicate k '0', c.isDigit = true := by
  intro c member
  rw [List.eq_of_mem_replicate member]
  decide

structure Numeral where
  whole : List Char
  decimals : List Char
  ne_nil : whole ≠ []
  digit : ∀ c ∈ whole ++ decimals, c.isDigit = true

namespace Numeral

def text (m : Numeral) : List Char :=
  if m.decimals.isEmpty then m.whole else m.whole ++ '.' :: m.decimals

def scaled (m : Numeral) (power : Int) : Number :=
  .ofScaled (Number.digitsValue (m.whole ++ m.decimals)) (power - m.decimals.length)

end Numeral

namespace Number

def natural? (text : List Char) : Option Nat :=
  if text ≠ [] ∧ ∀ c ∈ text, c.isDigit = true then some (digitsValue text) else none

def power? : List Char → Option Int
  | [] => some 0
  | 'e' :: '-' :: text => (natural? text).map fun k => -k
  | 'e' :: '+' :: text => (natural? text).map fun k => k
  | 'e' :: text => (natural? text).map fun k => k
  | _ => none

def unsigned? (text : List Char) : Option Number :=
  let whole := text.takeWhile Char.isDigit
  let behind := text.drop whole.length
  let decimals := if behind.head? = some '.' then behind.tail.takeWhile Char.isDigit else []
  let rest := if behind.head? = some '.' then behind.tail.drop decimals.length else behind
  if whole.isEmpty then none
  else (power? rest).map fun power =>
    ofScaled (digitsValue (whole ++ decimals)) (power - decimals.length)

/-- Reads a decimal text as the nearest number. -/
def ofText? (text : String) : Option Number :=
  if text.toList.head? = some '-' then (unsigned? text.toList.tail).map negate
  else unsigned? text.toList

theorem natural?_toDigits (k : Nat) : natural? (Nat.toDigits 10 k) = some k := by
  have digit : ∀ c ∈ Nat.toDigits 10 k, c.isDigit = true := fun c member =>
    Nat.isDigit_of_mem_toDigits (by decide) (by decide) member
  rw [natural?, if_pos ⟨Nat.toDigits_ne_nil, digit⟩, digitsValue_toDigits]

def powerText (power : Int) : String :=
  (if power < 0 then "e" else "e+") ++ toString power

private theorem power?_powerText (power : Int) : power? (powerText power).toList = some power := by
  cases power with
  | ofNat k =>
    have shape : (powerText (.ofNat k)).toList = 'e' :: '+' :: Nat.toDigits 10 k := by
      have rising : ¬ Int.ofNat k < 0 := by simp
      rw [powerText, if_neg rising, String.toList_append]
      change _ ++ k.repr.toList = _
      simp [Nat.repr_eq_ofList_toDigits]
    rw [shape, power?, natural?_toDigits]
    rfl
  | negSucc k =>
    have shape : (powerText (.negSucc k)).toList = 'e' :: '-' :: Nat.toDigits 10 (k + 1) := by
      rw [powerText, if_pos (Int.negSucc_lt_zero k), String.toList_append]
      change _ ++ ("-" ++ (k + 1).repr).toList = _
      simp [Nat.repr_eq_ofList_toDigits]
    rw [shape, power?, natural?_toDigits]
    rfl

private theorem head_powerText (power : Int) : ∀ c ∈ (powerText power).toList.head?, c = 'e' := by
  rw [powerText]
  split <;> simp

end Number

namespace Numeral

variable (m : Numeral)

theorem isDigit_of_mem_whole {c : Char} (member : c ∈ m.whole) : c.isDigit = true :=
  m.digit c (List.mem_append_left _ member)

theorem isDigit_of_mem_decimals {c : Char} (member : c ∈ m.decimals) : c.isDigit = true :=
  m.digit c (List.mem_append_right _ member)

theorem exists_text : ∃ c more, m.text = c :: more ∧ c.isDigit = true := by
  obtain ⟨c, more, whole⟩ := List.exists_cons_of_ne_nil m.ne_nil
  have digit : c.isDigit = true := m.isDigit_of_mem_whole (whole ▸ List.mem_cons_self)
  simp only [text, whole]
  split
  · exact ⟨c, more, rfl, digit⟩
  · exact ⟨c, _, List.cons_append, digit⟩

theorem ofList_text : String.ofList m.text =
    String.ofList m.whole ++
      if m.decimals.isEmpty then "" else "." ++ String.ofList m.decimals := by
  apply String.toList_injective
  simp only [text]
  split <;> simp

private theorem unsigned?_text {rest : List Char} (stop : ∀ c ∈ rest.head?, c = 'e') :
    Number.unsigned? (m.text ++ rest) = (Number.power? rest).map m.scaled := by
  have outside : ∀ c ∈ rest.head?, c.isDigit = false := by
    intro c first
    rw [stop c first]
    decide
  have other : rest.head? ≠ some '.' := fun first => absurd (stop '.' first) (by decide)
  have one : m.whole.isEmpty = false := by simpa using m.ne_nil
  have same : m.scaled = fun power =>
      .ofScaled (Number.digitsValue (m.whole ++ m.decimals)) (power - m.decimals.length) := rfl
  by_cases none : m.decimals = []
  · have whole : (m.whole ++ rest).takeWhile Char.isDigit = m.whole :=
      Source.takeWhile_of_front (fun _ => m.isDigit_of_mem_whole) outside
    simp [Number.unsigned?, text, none, whole, other, one, same]
  · have shape : m.text ++ rest = m.whole ++ '.' :: (m.decimals ++ rest) := by
      simp [text, none]
    have whole : (m.whole ++ '.' :: (m.decimals ++ rest)).takeWhile Char.isDigit = m.whole :=
      Source.takeWhile_of_front (fun _ => m.isDigit_of_mem_whole) (by rintro _ ⟨⟩; decide)
    have decimals : (m.decimals ++ rest).takeWhile Char.isDigit = m.decimals :=
      Source.takeWhile_of_front (fun _ => m.isDigit_of_mem_decimals) outside
    simp [Number.unsigned?, shape, whole, decimals, one, same]

/-! #### Numerals of given digits -/

section

variable {digits : List Char} (k : Nat) (one : digits ≠ []) (digit : ∀ c ∈ digits, c.isDigit = true)

theorem padded_append : digits.take (k + 1) ++ List.replicate (k + 1 - digits.length) '0' ++
    digits.drop (k + 1) = digits ++ List.replicate (k + 1 - digits.length) '0' := by
  obtain short | long := Nat.le_total digits.length (k + 1)
  · rw [List.take_of_length_le short, List.drop_of_length_le short, List.append_nil]
  · rw [Nat.sub_eq_zero_of_le long]
    simp

def padded : Numeral where
  whole := digits.take (k + 1) ++ List.replicate (k + 1 - digits.length) '0'
  decimals := digits.drop (k + 1)
  ne_nil := by simpa using fun none => absurd none one
  digit := padded_append k ▸ isDigit_append digit isDigit_zeros

theorem scaled_padded (power : Int) : (padded k one digit).scaled power =
    .ofScaled (Number.digitsValue digits) (power + k + 1 - digits.length) := by
  -- Either there are no decimals or no zeros, so their numbers make up one power of ten.
  rw [scaled, padded, padded_append, Number.digitsValue_append_zeros, Number.ofScaled_mul_pow,
    List.length_drop]
  congr 1
  omega

def below : Numeral where
  whole := ['0']
  decimals := List.replicate k '0' ++ digits
  ne_nil := List.cons_ne_nil _ _
  digit := isDigit_append (isDigit_zeros (k := 1)) (isDigit_append isDigit_zeros digit)

private theorem scaled_below (power : Int) : (below k digit).scaled power =
    .ofScaled (Number.digitsValue digits) (power - k - digits.length) := by
  have value : Number.digitsValue (['0'] ++ (List.replicate k '0' ++ digits)) =
      Number.digitsValue digits := Number.digitsValue_zeros_append digits (k + 1)
  rw [scaled, below, value, List.length_append, List.length_replicate]
  congr 1
  omega

end

end Numeral

/-! ### Decimals as texts -/

namespace Decimal

def number (d : Decimal) : Number :=
  .ofScaled (Number.digitsValue d.digits) (d.scale + 1 - d.digits.length)

variable {d : Decimal} (one : d.digits ≠ []) (digit : ∀ c ∈ d.digits, c.isDigit = true)
include one digit

private theorem exists_positional :
    ∃ m : Numeral, d.positional "" = String.ofList m.text ∧ m.scaled 0 = d.number := by
  obtain ⟨digits, scale⟩ := d
  cases scale with
  | ofNat k =>
    refine ⟨.padded k one digit, (Numeral.padded k one digit).ofList_text.symm, ?_⟩
    rw [Numeral.scaled_padded, number, Int.zero_add, Int.ofNat_eq_natCast]
  | negSucc k =>
    refine ⟨.below k digit, ?_, ?_⟩
    · apply String.toList_injective
      simp [Numeral.ofList_text, Numeral.below, positional, one]
    · rw [Numeral.scaled_below, number]
      dsimp only
      congr 1
      omega

private theorem exists_scientific :
    ∃ m : Numeral, d.scientific "e+" = String.ofList m.text ++ Number.powerText d.scale ∧
      m.scaled d.scale = d.number := by
  refine ⟨.padded 0 one digit, ?_, ?_⟩
  · have whole : (Numeral.padded 0 one digit).whole = d.digits.take 1 := by
      have none : 0 + 1 - d.digits.length = 0 := Nat.sub_eq_zero_of_le (List.length_pos_iff.mpr one)
      simp [Numeral.padded, none]
    rw [Numeral.ofList_text, whole, Number.powerText, ← String.append_assoc]
    rfl
  · rw [Numeral.scaled_padded, number, Int.natCast_zero, Int.add_zero]

end Decimal

namespace Number

/-! ### The parts of a number -/

theorem ofParts_isNegative_magnitude (n : Number) : ofParts n.isNegative n.magnitude = n := by
  obtain ⟨bits⟩ := n
  have bound := bits.toNat_lt
  simp only [ofParts, isNegative, magnitude, Nat.pow_eq, mk.injEq, ← UInt64.toNat_inj]
  simp only [decide_eq_true_eq, UInt64.toNat_ofNat']
  split <;> omega

theorem magnitude_lt (n : Number) : n.magnitude < 2 ^ 63 :=
  Nat.mod_lt _ (Nat.two_pow_pos 63)

section

variable {magnitude : Nat} (negative : Bool) (bound : magnitude < 2 ^ 63)
include bound

private theorem magnitude_ofParts : (ofParts negative magnitude).magnitude = magnitude := by
  cases negative <;> simp [ofParts, Number.magnitude] <;> omega

theorem isNegative_ofParts : (ofParts negative magnitude).isNegative = negative := by
  cases negative <;> simp [ofParts, isNegative] <;> omega

end

def absolute (n : Number) : Number := ofParts false n.magnitude

theorem magnitude_absolute (n : Number) : n.absolute.magnitude = n.magnitude :=
  magnitude_ofParts false n.magnitude_lt

theorem isNegative_absolute (n : Number) : n.absolute.isNegative = false :=
  isNegative_ofParts false n.magnitude_lt

theorem sign_absolute (n : Number) :
    (if n.isNegative then n.absolute.negate else n.absolute) = n := by
  conv_rhs => rw [← n.ofParts_isNegative_magnitude]
  cases n.isNegative with
  | true => simp [negate, isNegative_absolute, magnitude_absolute]
  | false => rfl

/-! ### Printed numbers -/

/-- The digits of a number are those of a point inside its interval, on some grid and without the
zeros at the end. -/
theorem exists_steps {n : Number} (some : n.magnitude ≠ 0) :
    ∃ steps grid zeros, 0 < steps ∧ n.rounding.contains (steps * 10 ^ grid) ∧
      Nat.toDigits 10 steps = n.shortest.digits ++ List.replicate zeros '0' ∧
      n.shortest.scale + 1 - n.shortest.digits.length =
      (zeros + grid : Nat) - (n.places : Int) := by
  let places := (Nat.toDigits 10 n.rounding.value).length - 1
  let found := n.rounding.coarsest places
  obtain ⟨zeros, whole⟩ := exists_dropTrailingZeros (Nat.toDigits 10 found.1)
  refine ⟨found.1, found.2, zeros, coarsest_pos some places,
    Rounding.contains_coarsest (contains_value some) places, whole, ?_⟩
  have length := congrArg List.length whole
  have one := List.length_pos_iff.mpr (Nat.toDigits_ne_nil : Nat.toDigits 10 found.1 ≠ [])
  have scale : n.shortest.scale =
      ((Nat.toDigits 10 found.1).length - 1 + found.2 : Nat) - (n.places : Int) := rfl
  have digits : n.shortest.digits = dropTrailingZeros (Nat.toDigits 10 found.1) := rfl
  rw [List.length_append, List.length_replicate, ← digits] at length
  omega

section

variable {n : Number} (some : n.magnitude ≠ 0)
include some

theorem digits_shortest_ne_nil : n.shortest.digits ≠ [] := by
  obtain ⟨steps, grid, zeros, positive, -, whole, -⟩ := exists_steps some
  intro none
  have value : digitsValue [] * 10 ^ zeros = steps := by
    rw [← digitsValue_append_zeros, ← none, ← whole, digitsValue_toDigits]
  rw [digitsValue, List.foldl_nil, Nat.zero_mul] at value
  omega

theorem isDigit_of_mem_shortest : ∀ c ∈ n.shortest.digits, c.isDigit = true := by
  obtain ⟨steps, grid, zeros, -, -, whole, -⟩ := exists_steps some
  intro c member
  have inside : c ∈ Nat.toDigits 10 steps := whole ▸ List.mem_append_left _ member
  exact Nat.isDigit_of_mem_toDigits (by decide) (by decide) inside

theorem number_shortest (finite : n.magnitude < infinite) : n.shortest.number = n.absolute := by
  obtain ⟨steps, grid, zeros, -, inside, whole, scale⟩ := exists_steps some
  have value : steps = digitsValue n.shortest.digits * 10 ^ zeros := by
    rw [← digitsValue_append_zeros, ← whole, digitsValue_toDigits]
  rw [absolute, ← nearest_of_contains finite inside, value, Nat.mul_assoc, ← Nat.pow_add]
  exact (nearest_pow scale).symm

end

end Number

namespace Layout

def signed (negative : Bool) (m : Numeral) (behind : String) : String :=
  (if negative then "-" else "") ++ (String.ofList m.text ++ behind)

section

variable {n : Number} (finite : n.magnitude < Number.infinite) (nonzero : n.magnitude ≠ 0)
include finite nonzero

theorem render_printed : printed.render n = (if n.isNegative then "-" else "") ++
    if printed.isPositional n.magnitude then n.shortest.positional ""
      else n.shortest.scientific "e+" := by
  obtain ⟨number, bounded⟩ := Number.isFinite_iff.mpr finite
  have other : n.isZero = false := by simpa [Number.isZero] using nonzero
  simp [render, number, bounded, other, printed]

theorem exists_signed_positional (near : printed.isPositional n.magnitude = true) :
    ∃ m, printed.render n = signed n.isNegative m "" ∧ m.scaled 0 = n.absolute := by
  obtain ⟨m, text, value⟩ := Decimal.exists_positional (Number.digits_shortest_ne_nil nonzero)
    (Number.isDigit_of_mem_shortest nonzero)
  refine ⟨m, ?_, value.trans (Number.number_shortest nonzero finite)⟩
  rw [render_printed finite nonzero, if_pos near, text, signed, String.append_empty]

private theorem exists_signed_scientific (far : ¬ printed.isPositional n.magnitude = true) :
    ∃ m, printed.render n = signed n.isNegative m (Number.powerText n.shortest.scale) ∧
      m.scaled n.shortest.scale = n.absolute := by
  obtain ⟨m, text, value⟩ := Decimal.exists_scientific (Number.digits_shortest_ne_nil nonzero)
    (Number.isDigit_of_mem_shortest nonzero)
  refine ⟨m, ?_, value.trans (Number.number_shortest nonzero finite)⟩
  rw [render_printed finite nonzero, if_neg far, text, signed]

end

theorem render_printed_zero {n : Number} (zero : n.magnitude = 0) : printed.render n = "0" := by
  simp [render, Number.isNaN, Number.isInfinite, Number.isZero, zero, Number.infinite, printed]

end Layout

namespace Number

theorem ofText?_signed (negative : Bool) (m : Numeral) {behind : String} {power : Int}
    (stop : ∀ c ∈ behind.toList.head?, c = 'e') (read : power? behind.toList = some power) :
    ofText? (Layout.signed negative m behind) =
      some (if negative then (m.scaled power).negate else m.scaled power) := by
  have value : unsigned? (m.text ++ behind.toList) = some (m.scaled power) := by
    rw [m.unsigned?_text stop, read]
    rfl
  cases negative with
  | true =>
    have shape : (Layout.signed true m behind).toList = '-' :: (m.text ++ behind.toList) := by
      simp [Layout.signed]
    rw [ofText?, shape, if_pos List.head?_cons, List.tail_cons, value]
    rfl
  | false =>
    obtain ⟨c, more, text, digit⟩ := m.exists_text
    have shape : (Layout.signed false m behind).toList = m.text ++ behind.toList := by
      simp [Layout.signed]
    have other : (m.text ++ behind.toList).head? ≠ some '-' := by
      rw [text]
      rintro ⟨⟩
      exact absurd digit (by decide)
    rw [ofText?, shape, if_neg other, value]
    rfl

theorem ofText?_render {n : Number} (finite : n.magnitude < infinite) :
    ∃ m, ofText? (Layout.printed.render n) = some m ∧ m.same n = true := by
  have number := (isFinite_iff.mpr finite).1
  by_cases zero : n.magnitude = 0
  · refine ⟨ofParts false 0, ?_, ?_⟩
    · rw [Layout.render_printed_zero zero]
      decide +kernel
    · have key : n.key = 0 := by simp [Number.key, zero]
      have nil : (ofParts false 0).isNaN = false ∧ (ofParts false 0).key = 0 := by decide
      simp [same, number, key, nil]
  · refine ⟨n, ?_, by rw [same_self, number]; rfl⟩
    conv_rhs => rw [← n.sign_absolute]
    by_cases near : Layout.printed.isPositional n.magnitude = true
    · obtain ⟨m, text, value⟩ := Layout.exists_signed_positional finite zero near
      rw [text, ofText?_signed n.isNegative m (by simp) rfl, value]
    · obtain ⟨m, text, value⟩ := Layout.exists_signed_scientific finite zero near
      rw [text, ofText?_signed n.isNegative m (head_powerText _) (power?_powerText _), value]

end Number

end DaiScript
