import LuaData.Proofs.Integral
import Mathlib

namespace LuaData.Number

open Float.Model (UnpackedFloat Format totalExponent)
open Float.Model.UnpackedFloat

variable {x y z : Number} {k : Int}

/-- The double of these bits. The payload of a NaN is lost. -/
def double (x : Number) : Float.Model := .ofBits x.bits

def sign (x : Number) : Sign := if x.negative then .negative else .positive

def unpacked (x : Number) : UnpackedFloat :=
  if x.isNaN then .notANumber
  else if x.isInfinite then .infinity x.sign
  else if h : x.significand = 0 then .zero x.sign
  else .finite x.sign x.significand x.scale (Nat.pos_of_ne_zero h)

def vector (x : Number) : BitVec Format.binary64.numBits := x.bits.toBitVec

theorem toNat_unpackExponent (x : Number) : (unpackExponent x.vector).toNat = x.exponent := by
  rw [unpackExponent_def, BitVec.extractLsb'_toNat]
  rfl

theorem toNat_unpackMantissa (x : Number) : (unpackMantissa x.vector).toNat = x.fraction := by
  rw [unpackMantissa_def, BitVec.extractLsb'_toNat, fraction_eq]
  rfl

theorem ofBitVec_unpackSign (x : Number) : Sign.ofBitVec (unpackSign x.vector) = x.sign := by
  have hbit : (unpackSign x.vector).toNat = x.bits.toNat / 2 ^ 63 := by
    rw [unpackSign_def, BitVec.extractLsb'_toNat, Nat.shiftRight_eq_div_pow]
    have hlt := x.bits.toNat_lt
    exact Nat.mod_eq_of_lt (show x.bits.toNat / 2 ^ 63 < 2 ^ 1 by omega)
  have hzero : unpackSign x.vector = 0#1 ↔ x.bits.toNat / 2 ^ 63 = 0 := by
    rw [← hbit]
    exact ⟨fun h => by rw [h]; rfl, fun h => BitVec.eq_of_toNat_eq h⟩
  rw [Sign.ofBitVec, sign, negative]
  simp only [hzero, decide_eq_true_eq]
  split_ifs with h h' h' <;> first | rfl | omega

theorem toNat_append_unpackMantissa (x : Number) :
    (1#1 ++ unpackMantissa x.vector).toNat = x.fraction + 2 ^ 52 := by
  rw [BitVec.toNat_append, toNat_unpackMantissa, Nat.or_comm]
  exact Nat.or_two_pow_eq_add_of_lt x.fraction_lt

theorem unpackExponent_max_iff (x : Number) :
    unpackExponent x.vector = -1#11 ↔ x.exponent = 2047 := by
  rw [← BitVec.toNat_inj, toNat_unpackExponent]
  rfl

theorem unpackExponent_zero_iff (x : Number) : unpackExponent x.vector = 0#11 ↔ x.exponent = 0 := by
  rw [← BitVec.toNat_inj, toNat_unpackExponent]
  rfl

theorem unpackMantissa_zero_iff (x : Number) : unpackMantissa x.vector = 0#52 ↔ x.fraction = 0 := by
  rw [← BitVec.toNat_inj, toNat_unpackMantissa]
  rfl

theorem isNaNBits_vector (x : Number) : isNaNBits x.vector = x.isNaN := by
  rw [isNaNBits, isNaN, Bool.eq_iff_iff]
  simp only [ne_eq, unpackExponent_max_iff x, unpackMantissa_zero_iff x]
  simp

/-- The standard library reads the same fields. -/
theorem unpack_vector (x : Number) : unpack Format.binary64 x.vector = x.unpacked := by
  have hbias : (Format.binary64.exponentBias : Int) + (52 : Nat) = 1075 := rfl
  simp only [unpack, unpackExponent_max_iff x, unpackExponent_zero_iff x, unpackMantissa_zero_iff x,
    ofBitVec_unpackSign, toNat_unpackExponent, hbias]
  rw [unpacked, isNaN, isInfinite]
  by_cases h : x.exponent = 2047
  · by_cases hf : x.fraction = 0 <;> simp [h, hf]
  · by_cases h0 : x.exponent = 0
    · have hs : x.significand = x.fraction := if_pos h0
      have hc : x.scale = -1074 := by rw [scale, h0]; rfl
      by_cases hf : x.fraction = 0
      · simp [h0, hf, hs]
      · simpa [h0, hf, hs, hc] using toNat_unpackMantissa x
    · have hs : x.significand = x.fraction + 2 ^ 52 := if_neg h0
      have hc : x.scale = x.exponent - 1075 := by rw [scale]; omega
      simpa [h, h0, hs, hc] using toNat_append_unpackMantissa x

theorem pack_unpacked (x : Number) : Float.Model.pack x.unpacked = x.double := by
  rw [← unpack_vector]
  rfl

theorem unpack_double (x : Number) : x.double.unpack = x.unpacked := by
  have hpack : x.double.unpack =
      unpack Format.binary64 (pack Format.binary64 (unpack Format.binary64 x.vector)) := rfl
  rw [hpack, pack_unpack, isNaNBits_vector, ← unpack_vector]
  split_ifs with h
  · rw [unpack_packedNaN, unpack_vector, unpacked, if_pos h]
  · rfl

theorem toBits_double (h : x.isNaN = false) : x.double.toBits = x.bits := by
  have hpack : x.double.toBits.toBitVec =
      pack Format.binary64 (unpack Format.binary64 x.vector) := rfl
  apply UInt64.toBitVec_inj.1
  rw [hpack, pack_unpack, isNaNBits_vector, h, if_neg (by decide)]
  rfl

theorem mul_double (x y : Number) :
    x.double * y.double = Float.Model.pack (mul Format.binary64 x.unpacked y.unpacked) := by
  rw [← unpack_double, ← unpack_double]
  rfl

/-- Zeros that are shifted out leave no trace. -/
theorem shiftRight_exact (n k : Nat) :
    (ExtendedMantissa.ofMantissaAndAccuracy (n * 2 ^ k) .exact >>> k) =
      ExtendedMantissa.ofMantissaAndAccuracy n .exact := by
  induction k generalizing n with
  | zero => rw [pow_zero, mul_one]; rfl
  | succ k ih =>
    have hstep : ∀ em : ExtendedMantissa, em >>> (k + 1) = (em >>> k).shiftRightOne := fun _ => rfl
    rw [hstep, show n * 2 ^ (k + 1) = n * 2 * 2 ^ k by ring, ih]
    simp [ExtendedMantissa.shiftRightOne, ExtendedMantissa.ofMantissaAndAccuracy]

/-- What a shift leaves of the bits above it. -/
theorem mantissa_shiftRight (em : ExtendedMantissa) (k : Nat) :
    (em >>> k).mantissa = em.mantissa / 2 ^ k := by
  induction k with
  | zero => rw [pow_zero, Nat.div_one]; rfl
  | succ k ih =>
    rw [pow_succ, ← Nat.div_div_eq_div_mul, ← ih]
    rfl

theorem targetExponent_eq (m : Nat) (e : Int) :
    Format.binary64.targetExponent (totalExponent m e) = max (m.log2 + e - 52) (-1074) := by
  have hmin : Format.binary64.minExponent = -1074 := rfl
  have hbits : Format.binary64.mantissaBits = 53 := rfl
  rw [Format.targetExponent, totalExponent, hmin, hbits]
  omega

/-- A 53-bit significand with zeros behind it is shifted back to its own scale. -/
theorem shiftToTargetExponent_exact {n j : Nat} {e : Int} (hlo : 2 ^ 52 ≤ n) (hhi : n < 2 ^ 53)
    (he : -1074 ≤ e + j) : shiftToTargetExponent Format.binary64 (n * 2 ^ j) e .exact =
      (ExtendedMantissa.ofMantissaAndAccuracy n .exact, e + j) := by
  have hp : 0 < 2 ^ j := Nat.two_pow_pos j
  have hlog : (n * 2 ^ j).log2 = 52 + j := by
    rw [Nat.log2_eq_iff (Nat.mul_pos (by omega) hp).ne']
    constructor
    · rw [pow_add]
      exact Nat.mul_le_mul_right _ hlo
    · rw [show 52 + j + 1 = 53 + j by omega, pow_add]
      exact Nat.mul_lt_mul_of_pos_right hhi hp
  have htarget : Format.binary64.targetExponent (totalExponent (n * 2 ^ j) e) = e + j := by
    rw [targetExponent_eq, hlog]
    omega
  have hshift : (e + j - e).toNat = j := by omega
  rw [shiftToTargetExponent, htarget, shiftToExponent, hshift, shiftRight_exact]

theorem roundWithAccuracy_exact (s : Sign) {n j : Nat} {e : Int} (hlo : 2 ^ 52 ≤ n)
    (hhi : n < 2 ^ 53) (he : -1074 ≤ e + j) :
    roundWithAccuracy Format.binary64 s (n * 2 ^ j) e .exact =
      .finite s n (e + j) (by omega) := by
  have hagain := shiftToTargetExponent_exact (j := 0) (e := e + j) hlo hhi (by omega)
  rw [pow_zero, mul_one] at hagain
  rw [roundWithAccuracy, shiftToTargetExponent_exact hlo hhi he]
  have hrounded : (ExtendedMantissa.ofMantissaAndAccuracy n .exact).roundedMantissa = n := rfl
  simp only [hrounded, hagain]
  have hn : (ExtendedMantissa.ofMantissaAndAccuracy n .exact).mantissa ≠ 0 := by
    show n ≠ 0
    omega
  rw [dif_neg hn]
  simp [ExtendedMantissa.ofMantissaAndAccuracy]

theorem significand_lt (x : Number) : x.significand < 2 ^ 53 := by
  have hf := x.fraction_lt
  rw [significand, Nat.one_shiftLeft]
  split_ifs <;> omega

theorem le_significand (h : x.exponent ≠ 0) : 2 ^ 52 ≤ x.significand := by
  rw [significand, if_neg h, Nat.one_shiftLeft]
  omega

theorem unpacked_of_finite (he : x.exponent ≠ 2047) (hs : x.significand ≠ 0) :
    x.unpacked = .finite x.sign x.significand x.scale (Nat.pos_of_ne_zero hs) := by
  simp [unpacked, isNaN, isInfinite, he, hs]

theorem unpacked_of_zero (he : x.exponent ≠ 2047) (hs : x.significand = 0) :
    x.unpacked = .zero x.sign := by
  simp [unpacked, isNaN, isInfinite, he, hs]

structure IsTwoPow (y : Number) (k : Int) : Prop where
  exponent : y.exponent ≠ 2047
  negative : y.negative = false
  significand : y.significand = 2 ^ 52
  scale : y.scale = k - 52

theorem IsTwoPow.unpacked (hy : y.IsTwoPow k) :
    y.unpacked = .finite .positive (2 ^ 52) (k - 52) (by decide) := by
  have hs : y.significand ≠ 0 := by
    rw [hy.significand]
    decide
  rw [unpacked_of_finite hy.exponent hs, sign, hy.negative]
  simp only [hy.significand, hy.scale]
  rfl

theorem mul_positive (s : Sign) : s * .positive = s := by cases s <;> rfl

/-- A number scaled by a power of two, where the outcome is a normal double `z`. It needs no
rounding. -/
theorem mul_double_of_exact {j : Nat} (hy : y.IsTwoPow k) (hx : x.exponent ≠ 2047)
    (hx0 : x.significand ≠ 0) (hz : z.exponent ≠ 2047) (hz0 : z.exponent ≠ 0)
    (hsign : z.negative = x.negative) (hproduct : x.significand * 2 ^ 52 = z.significand * 2 ^ j)
    (hscale : z.scale = x.scale + (k - 52) + j) : x.double * y.double = z.double := by
  have hlo := le_significand hz0
  have hle : -1074 ≤ x.scale + (k - 52) + j := by
    rw [← hscale, scale]
    omega
  have hsame : x.sign = z.sign := by rw [sign, sign, hsign]
  rw [mul_double, ← pack_unpacked z, unpacked_of_finite hx hx0, hy.unpacked,
    unpacked_of_finite hz (by omega)]
  congr 1
  rw [mul, mul_positive, hproduct, roundWithAccuracy_exact _ hlo z.significand_lt hle]
  simp only [hsame, hscale]

/-- Infinities, zeros and NaN are kept. -/
theorem mul_double_of_special (hy : y.IsTwoPow k) (hx : x.exponent = 2047 ∨ x.significand = 0) :
    x.double * y.double = x.double := by
  rw [mul_double, ← pack_unpacked x, hy.unpacked]
  congr 1
  rw [unpacked]
  split_ifs with h h' h''
  · rfl
  · rw [mul, mul_positive]
  · rw [mul, mul_positive]
  · simp [isNaN, isInfinite] at h h'
    omega

theorem sign_apply (x : Number) (n : Nat) : x.sign.apply n = x.signed n := by
  rw [sign, signed]
  split_ifs <;> rfl

theorem toInt64_double (x : Number) : x.double.toInt64 = x.unpacked.toInt64 := by
  rw [← unpack_double]
  rfl

theorem toInt_toInt64_double {k : Nat} (hx : x.exponent ≠ 2047) (hs : x.significand ≠ 0)
    (hk : x.scale = -k) : x.double.toInt64.toInt = x.signed (x.significand / 2 ^ k) := by
  have hround : roundToInt x.sign x.significand x.scale = x.signed (x.significand / 2 ^ k) := by
    have h0 : (-(k : Int) - 0).toNat = 0 := by omega
    have h1 : (0 - (-(k : Int) - (0 : Nat))).toNat = k := by omega
    rw [roundToInt, decreaseExponent, hk, h0, Nat.shiftLeft_zero]
    simp only [shiftToExponent, h1, mantissa_shiftRight]
    exact sign_apply x _
  have hlt : x.significand / 2 ^ k < 2 ^ 53 := (Nat.div_le_self ..).trans_lt x.significand_lt
  have hmin : Int64.minValue.toInt = -2 ^ 63 := rfl
  have hmax : Int64.maxValue.toInt = 2 ^ 63 - 1 := rfl
  rw [toInt64_double, unpacked_of_finite hx hs, UnpackedFloat.toInt64, UnpackedFloat.toInt, hround]
  generalize x.significand / 2 ^ k = n at hlt ⊢
  apply Int64.toInt_ofIntClamp
  · rw [hmin, signed]
    split_ifs <;> omega
  · rw [hmax, signed]
    split_ifs <;> omega

theorem toInt64_of_zero (hx : x.exponent ≠ 2047) (hs : x.significand = 0) :
    x.double.toInt64 = 0 := by
  rw [toInt64_double, unpacked_of_zero hx hs]
  rfl

theorem toInt64_of_isNaN (h : x.isNaN = true) : x.double.toInt64 = 0 := by
  rw [toInt64_double, unpacked, if_pos h]
  rfl

theorem toInt64_of_isInfinite (h : x.isInfinite = true) :
    x.double.toInt64 = if x.negative then Int64.minValue else Int64.maxValue := by
  have hnan : ¬x.isNaN = true := by
    simp only [isInfinite, isNaN, Bool.and_eq_true] at h ⊢
    simp_all
  rw [toInt64_double, unpacked, if_neg hnan, if_pos h, sign]
  split_ifs <;> rfl

end LuaData.Number
