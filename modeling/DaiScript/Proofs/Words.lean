import DaiScript.Proofs.Numerals

/-! Numbers as words of 64 bits. The sign, the exponent and the fraction of the word are those that
a machine finds in it, so a number and the machine number with its bits stand for the same datum,
and they are equal to the same numbers. -/
namespace DaiScript.Number

open Float.Model (Format UnpackedFloat)
open Float.Model.UnpackedFloat

/-! ### The fields of a word -/

abbrev word (n : Number) : BitVec Format.binary64.numBits := n.bits.toBitVec

theorem infinite_eq : infinite = 2047 * 2 ^ 52 := rfl

section

variable (n : Number)

private theorem toNat_word :
    n.word.toNat = (if n.isNegative then 1 else 0) * 2 ^ 63 + n.magnitude := by
  have bound := n.bits.toNat_lt
  simp only [word, UInt64.toNat_toBitVec, isNegative, magnitude, Nat.pow_eq, decide_eq_true_eq]
  split <;> omega

private theorem toNat_unpackSign : (unpackSign n.word).toNat = if n.isNegative then 1 else 0 := by
  have bound := n.bits.toNat_lt
  simp only [unpackSign, BitVec.toNat_cast, BitVec.extractLsb_toNat, UInt64.toNat_toBitVec,
    isNegative, Nat.pow_eq, Nat.shiftRight_eq_div_pow, decide_eq_true_eq]
  split <;> omega

theorem toNat_unpackExponent : (unpackExponent n.word).toNat = n.magnitude / 2 ^ 52 := by
  have bound := n.bits.toNat_lt
  simp only [unpackExponent, BitVec.toNat_cast, BitVec.extractLsb_toNat, UInt64.toNat_toBitVec,
    magnitude, Nat.pow_eq, Nat.shiftRight_eq_div_pow]
  omega

theorem toNat_unpackMantissa : (unpackMantissa n.word).toNat = n.magnitude % 2 ^ 52 := by
  have bound := n.bits.toNat_lt
  simp only [unpackMantissa, BitVec.toNat_cast, BitVec.extractLsb_toNat, UInt64.toNat_toBitVec,
    magnitude, Nat.pow_eq, Nat.shiftRight_zero]
  omega

theorem unpackExponent_eq_top : unpackExponent n.word = -1#_ ↔ n.magnitude / 2 ^ 52 = 2047 := by
  rw [← BitVec.toNat_inj, toNat_unpackExponent]
  rfl

theorem unpackExponent_eq_zero : unpackExponent n.word = 0#_ ↔ n.magnitude / 2 ^ 52 = 0 := by
  rw [← BitVec.toNat_inj, toNat_unpackExponent]
  rfl

theorem unpackMantissa_eq_zero : unpackMantissa n.word = 0#_ ↔ n.magnitude % 2 ^ 52 = 0 := by
  rw [← BitVec.toNat_inj, toNat_unpackMantissa]
  rfl

end

theorem toNat_append {k l : Nat} (x : BitVec k) (y : BitVec l) :
    (x ++ y).toNat = x.toNat * 2 ^ l + y.toNat := by
  rw [BitVec.toNat_append, ← Nat.shiftLeft_add_eq_or_of_lt y.isLt, Nat.shiftLeft_eq]

theorem toNat_packComponents (s : Sign) (e : BitVec Format.binary64.exponentBits)
    (m : BitVec Format.binary64.mantissaBitsWithoutImplicit) :
    (packComponents .binary64 s e m).toNat =
      (s.toBitVec.toNat * 2 ^ 11 + e.toNat) * 2 ^ 52 + m.toNat := by
  rw [packComponents, toNat_append, toNat_append]

/-! ### The datum of a word -/

def sign (n : Number) : Sign := Sign.ofBitVec (unpackSign n.word)

inductive Denotes (n : Number) : UnpackedFloat → Prop
  | nan : infinite < n.magnitude → Denotes n .notANumber
  | infinity : n.magnitude = infinite → Denotes n (.infinity n.sign)
  | zero : n.magnitude = 0 → Denotes n (.zero n.sign)
  | finite (positive : 0 < n.significand) : n.magnitude ≠ 0 → n.magnitude < infinite →
      Denotes n (.finite n.sign n.significand (n.exponent - 1074) positive)

theorem Denotes.of_eq {n : Number} {m : Nat} {e : Int} {positive : 0 < m}
    (some : n.magnitude ≠ 0) (bounded : n.magnitude < infinite) (significand : m = n.significand)
    (exponent : e = n.exponent - 1074) : n.Denotes (.finite n.sign m e positive) := by
  subst significand exponent
  exact .finite positive some bounded

theorem denotes_unpack (n : Number) : n.Denotes (unpack .binary64 n.word) := by
  have bound := n.magnitude_lt
  have exponent := n.toNat_unpackExponent
  have fraction := n.toNat_unpackMantissa
  have bias : (Format.binary64.exponentBias + Format.binary64.mantissaBitsWithoutImplicit : Int) =
    1075 := rfl
  unfold unpack
  dsimp only
  rw [bias]
  split
  · next top =>
    rw [unpackExponent_eq_top] at top
    split
    · next whole =>
      rw [unpackMantissa_eq_zero] at whole
      exact .infinity (by rw [infinite_eq]; omega)
    · next payload =>
      rw [unpackMantissa_eq_zero] at payload
      exact .nan (by rw [infinite_eq]; omega)
  · next below =>
    rw [unpackExponent_eq_top] at below
    split
    · next least =>
      rw [unpackExponent_eq_zero] at least
      split
      · next whole =>
        rw [unpackMantissa_eq_zero] at whole
        exact .zero (by omega)
      · next part =>
        rw [unpackMantissa_eq_zero] at part
        have small : n.magnitude < 2 ^ 52 := by omega
        apply Denotes.of_eq
        · omega
        · rw [infinite_eq]
          omega
        · rw [fraction, significand, Nat.pow_eq, if_pos small]
          omega
        · rw [exponent, Number.exponent, Nat.pow_eq]
          omega
    · next normal =>
      rw [unpackExponent_eq_zero] at normal
      have large : ¬ n.magnitude < 2 ^ 52 := by omega
      have leading : (1#1 ++ unpackMantissa n.word).toNat = 2 ^ 52 + n.magnitude % 2 ^ 52 := by
        rw [toNat_append, fraction]
        rfl
      apply Denotes.of_eq
      · omega
      · rw [infinite_eq]
        omega
      · rw [leading, significand, Nat.pow_eq, if_neg large]
        omega
      · rw [exponent, Number.exponent, Nat.pow_eq]
        omega

theorem unpack_eq_notANumber {n : Number} :
    unpack .binary64 n.word = .notANumber ↔ n.isNaN = true := by
  rw [isNaN, decide_eq_true_eq]
  have stands := n.denotes_unpack
  generalize unpack .binary64 n.word = u at stands
  cases stands with
  | nan above => simp [above]
  | infinity all => simp [all]
  | zero none => simp [none]
  | finite _ _ bounded => simp [bounded.le]

theorem exists_unpack_eq_zero {n : Number} :
    (∃ s, unpack .binary64 n.word = .zero s) ↔ n.isZero = true := by
  rw [isZero, beq_iff_eq]
  have stands := n.denotes_unpack
  generalize unpack .binary64 n.word = u at stands
  cases stands with
  | nan above =>
    have : n.magnitude ≠ 0 := by omega
    simp [this]
  | infinity all => simp [all, infinite_eq]
  | zero none => simp [none]
  | finite _ some _ => simp [some]

/-! ### Machine numbers -/

section

variable {n : Number}

private theorem log2_significand (positive : 0 < n.significand) :
    n.significand.log2 = 52 ↔ 2 ^ 52 ≤ n.magnitude := by
  rw [Nat.log2_eq_iff positive.ne']
  unfold significand
  rw [Nat.pow_eq]
  split <;> omega

theorem significand_mod : n.significand % 2 ^ 52 = n.magnitude % 2 ^ 52 := by
  unfold significand
  rw [Nat.pow_eq]
  split <;> omega

theorem pack_unpack (number : n.isNaN = false) :
    pack .binary64 (unpack .binary64 n.word) = n.word := by
  have sign : n.sign.toBitVec.toNat = if n.isNegative then 1 else 0 := by
    have keep : ∀ s : BitVec 1, (Sign.ofBitVec s).toBitVec = s := by decide
    rw [Number.sign, keep, toNat_unpackSign]
  have toNat_zero (width : Nat) : (0 : BitVec width).toNat = 0 := rfl
  apply BitVec.eq_of_toNat_eq
  rw [toNat_word, ← sign]
  have stands := n.denotes_unpack
  generalize unpack .binary64 n.word = u at stands
  cases stands with
  | nan above => simp [isNaN, above] at number
  | infinity all =>
    have top : (-1#_ : BitVec Format.binary64.exponentBits).toNat = 2047 := rfl
    rw [pack, packedInfinity, toNat_packComponents, all, infinite_eq, top, toNat_zero]
    omega
  | zero none =>
    rw [pack, packedZero, toNat_packComponents, none, toNat_zero, toNat_zero]
    omega
  | finite positive some bounded =>
    rw [infinite_eq] at bounded
    -- The exponent of a subnormal number is stored as zero, though it counts as one.
    have stored : (n.exponent - 1074 + Format.binary64.exponentBias +
        Format.binary64.mantissaBitsWithoutImplicit : Int).toNat =
          n.magnitude / 2 ^ 52 - 1 + 1 := by
      have bias : Format.binary64.exponentBias = 1023 := rfl
      have fraction : Format.binary64.mantissaBitsWithoutImplicit = 52 := rfl
      have exponent : n.exponent = n.magnitude / 2 ^ 52 - 1 := rfl
      omega
    have leading := log2_significand positive
    have width : 2 ^ Format.binary64.exponentBits = 2048 := rfl
    simp only [pack, stored, width]
    rw [if_neg (by omega)]
    split
    · next normal =>
      change n.significand.log2 + 1 = 53 at normal
      rw [toNat_packComponents, BitVec.toNat_ofNat, BitVec.toNat_ofNat, significand_mod, width]
      omega
    · next subnormal =>
      change ¬ n.significand.log2 + 1 = 53 at subnormal
      rw [toNat_packComponents, BitVec.toNat_ofNat, BitVec.toNat_ofNat, significand_mod, width]
      omega

end

/-- The machine number with the bits of a number stands for the same datum, if maybe as another
NaN. -/
theorem unpack_toFloat (n : Number) : n.toFloat.toModel.unpack = unpack .binary64 n.word := by
  change unpack .binary64 (pack .binary64 (unpack .binary64 n.word)) = _
  cases h : n.isNaN with
  | false => rw [pack_unpack h]
  | true =>
    rw [unpack_eq_notANumber.mpr h]
    rfl

private theorem beq_eq_true_iff (u v : UnpackedFloat) : u.beq v = true ↔
    u ≠ .notANumber ∧ u = v ∨ (∃ s, u = .zero s) ∧ ∃ s, v = .zero s := by
  unfold UnpackedFloat.beq
  cases u with
  | notANumber => simp [UnpackedFloat.compare]
  | infinity s =>
    cases v with
    | infinity t => cases s <;> cases t <;> simp [UnpackedFloat.compare, compare]
    | notANumber | zero t | finite t m e positive => cases s <;> simp [UnpackedFloat.compare]
  | zero s =>
    cases v with
    | infinity t | finite t m e positive => cases t <;> simp [UnpackedFloat.compare]
    | notANumber | zero t => simp [UnpackedFloat.compare]
  | finite s m e positive =>
    cases v with
    | infinity t => cases t <;> simp [UnpackedFloat.compare]
    | notANumber => simp [UnpackedFloat.compare]
    | zero t => cases s <;> simp [UnpackedFloat.compare]
    | finite t m' e' positive' =>
      cases s <;> cases t <;> simp [UnpackedFloat.compare, Ordering.then_eq_eq, and_comm]

/-! ### Equality -/

variable {m n : Number}

theorem eq_iff : m = n ↔ m.isNegative = n.isNegative ∧ m.magnitude = n.magnitude := by
  constructor
  · rintro rfl
    exact ⟨rfl, rfl⟩
  · rintro ⟨signs, magnitudes⟩
    rw [← m.ofParts_isNegative_magnitude, signs, magnitudes, n.ofParts_isNegative_magnitude]

private theorem key_eq_iff : m.key = n.key ↔ m = n ∨ m.isZero = true ∧ n.isZero = true := by
  rw [eq_iff, isZero, isZero, beq_iff_eq, beq_iff_eq, key, key]
  cases m.isNegative <;> cases n.isNegative <;> simp <;> omega

theorem same_iff : m.same n = true ↔
    m.isNaN = false ∧ n.isNaN = false ∧ (m = n ∨ m.isZero = true ∧ n.isZero = true) := by
  simp [same, key_eq_iff, and_assoc]

theorem not_isNaN_of_isZero (h : n.isZero = true) : n.isNaN = false := by
  rw [isZero, beq_iff_eq] at h
  simp [isNaN, h]

theorem same_eq_beq (m n : Number) : m.same n = (m.toFloat == n.toFloat) := by
  have equal : (m.toFloat == n.toFloat) = true ↔
      m.isNaN = false ∧ unpack .binary64 m.word = unpack .binary64 n.word ∨
        m.isZero = true ∧ n.isZero = true := by
    change m.toFloat.toModel.unpack.beq n.toFloat.toModel.unpack = true ↔ _
    rw [unpack_toFloat, unpack_toFloat, beq_eq_true_iff, exists_unpack_eq_zero,
      exists_unpack_eq_zero, ne_eq, unpack_eq_notANumber, Bool.not_eq_true]
  rw [Bool.eq_iff_iff, same_iff, equal]
  constructor
  · rintro ⟨number, -, rfl | zeros⟩
    · exact .inl ⟨number, rfl⟩
    · exact .inr zeros
  · rintro (⟨number, alike⟩ | zeros)
    · have other : n.isNaN = false := by
        rw [← Bool.not_eq_true, ← unpack_eq_notANumber, ← alike, unpack_eq_notANumber, number]
        exact Bool.false_ne_true
      have words : m.word = n.word := by rw [← pack_unpack number, alike, pack_unpack other]
      exact ⟨number, other, .inl (congrArg mk (UInt64.toBitVec_inj.mp words))⟩
    · exact ⟨not_isNaN_of_isZero zeros.1, not_isNaN_of_isZero zeros.2, .inr zeros⟩

end DaiScript.Number
