import LuaData.Proofs.Double

namespace LuaData.Number

open Float.Model (UnpackedFloat)
open Float.Model.UnpackedFloat

variable {x : Number} {rounds : Nat}

/-- The outcome `r` of a 32-bit operation, absent if the exact one is not `r`. -/
def exactly? (r : Int32) (n : Int) : Option Int32 := if r.toInt = n then some r else none

def sub? (a b : Int32) : Option Int32 := exactly? (a - b) (a.toInt - b.toInt)

def neg? (a : Int32) : Option Int32 := exactly? (-a) (-a.toInt)

/-- The mantissa in `[1/2, 1)` and the binary exponent of a finite double other than zero, in at
most so many rounds. All other doubles are left as they are. -/
def split? : Nat → Float.Model → Option (Float.Model × Int32)
  | 0, _ => none
  | rounds + 1, d =>
    if d == .ofBits 0 || !d.isFinite then some (d, 0)
    else
      let exponent := (d.toBits >>> 52 &&& 0x7ff).toUInt32.toInt32
      if exponent = 0 then do
        -- a subnormal double is scaled into the normal range first
        let (mantissa, e) ← split? rounds (d * .ofBits 0x43f0000000000000)
        return (mantissa, ← sub? e 64)
      else do
        let mantissa := d.toBits &&& ~~~((0x7ff : UInt64) <<< 52) ||| (1022 : UInt64) <<< 52
        return (.ofBits mantissa, ← sub? exponent 1022)

def fold? (i : Int32) : Option UInt32 :=
  if i < 0 then if i = Int32.minValue then some 0 else (neg? i).map Int32.toUInt32
  else some i.toUInt32

def machineHash? (rounds : Nat) (d : Float.Model) : Option UInt32 := do
  let (mantissa, e) ← split? rounds d
  fold? ((mantissa * .ofBits 0x41e0000000000000).toInt64.toInt32 + e)

theorem sub?_of_fits {a b : Int32} {n : Int} (h : a.toInt - b.toInt = n) (hlo : -2 ^ 31 ≤ n)
    (hhi : n < 2 ^ 31) : ∃ r, sub? a b = some r ∧ r.toInt = n := by
  have hr : (a - b).toInt = n := by
    rw [Int32.toInt_sub, h, Int.bmod_eq_of_le] <;> omega
  exact ⟨a - b, by rw [sub?, exactly?, h, if_pos hr], hr⟩

theorem toNat_toUInt32 {i : Int32} (h : 0 ≤ i.toInt) : (i.toUInt32.toNat : Int) = i.toInt := by
  have hlt := i.toUInt32.toNat_lt
  have hi : i.toInt = if 2 * i.toUInt32.toNat < 2 ^ 32 then (i.toUInt32.toNat : Int)
      else i.toUInt32.toNat - (2 ^ 32 : Nat) := BitVec.toInt_eq_toNat_cond i.toBitVec
  split_ifs at hi <;> omega

theorem fold?_eq (i : Int32) : (fold? i).map UInt32.toNat = some (foldSign i.toInt) := by
  have hlo := i.le_toInt
  have hhi := i.toInt_lt
  have hzero : i < 0 ↔ i.toInt < 0 := Int32.lt_iff_toInt_lt
  have hleast : i = Int32.minValue ↔ i.toInt = -0x80000000 := by
    rw [← Int32.toInt_inj, Int32.toInt_minValue]
    rfl
  rw [fold?, foldSign]
  simp only [hzero, hleast]
  split_ifs with h h' h'
  · rfl
  · -- the negation does not overflow, as the least word is not concerned
    have hneg : (-i).toInt = -i.toInt := by
      rw [Int32.toInt_neg, Int.bmod_eq_of_le] <;> omega
    have hnat := toNat_toUInt32 (i := -i) (by omega)
    rw [neg?, exactly?, if_pos hneg]
    simp only [Option.map_some, Option.some.injEq]
    omega
  · omega
  · have hnat := toNat_toUInt32 (i := i) (by omega)
    simp only [Option.map_some, Option.some.injEq]
    omega

def ofFields (negative : Bool) (exponent fraction : Nat) : Number :=
  ⟨UInt64.ofNat ((if negative then 2 ^ 63 else 0) + exponent * 2 ^ 52 + fraction)⟩

section Fields

variable {s : Bool} {e f : Nat}

theorem toNat_bits_ofFields (he : e < 2 ^ 11) (hf : f < 2 ^ 52) :
    (ofFields s e f).bits.toNat = (if s then 2 ^ 63 else 0) + e * 2 ^ 52 + f := by
  rw [ofFields, UInt64.toNat_ofNat']
  apply Nat.mod_eq_of_lt
  split_ifs <;> omega

theorem exponent_ofFields (he : e < 2 ^ 11) (hf : f < 2 ^ 52) : (ofFields s e f).exponent = e := by
  rw [exponent_eq, toNat_bits_ofFields he hf]
  split_ifs <;> omega

theorem fraction_ofFields (he : e < 2 ^ 11) (hf : f < 2 ^ 52) : (ofFields s e f).fraction = f := by
  rw [fraction_eq, toNat_bits_ofFields he hf]
  split_ifs <;> omega

theorem negative_ofFields (he : e < 2 ^ 11) (hf : f < 2 ^ 52) : (ofFields s e f).negative = s := by
  rw [negative, toNat_bits_ofFields he hf]
  cases s <;> simp <;> omega

theorem significand_ofFields (h0 : e ≠ 0) (he : e < 2 ^ 11) (hf : f < 2 ^ 52) :
    (ofFields s e f).significand = f + 2 ^ 52 := by
  rw [significand, exponent_ofFields he hf, fraction_ofFields he hf, if_neg h0, Nat.one_shiftLeft]

theorem scale_ofFields (h0 : e ≠ 0) (he : e < 2 ^ 11) (hf : f < 2 ^ 52) :
    (ofFields s e f).scale = e - 1075 := by
  rw [scale, exponent_ofFields he hf]
  omega

end Fields

/-- Two numbers with the same fields are the same. -/
theorem ext_fields {y : Number} (hn : x.negative = y.negative) (he : x.exponent = y.exponent)
    (hf : x.fraction = y.fraction) : x = y := by
  have hbits : x.bits = y.bits := by
    apply UInt64.toNat_inj.1
    rw [toNat_bits, toNat_bits, hn, he, hf]
  cases x
  exact congrArg mk hbits

theorem negative_eq (x : Number) : x.negative = decide (x.bits.toNat / 2 ^ 63 = 1) := by
  have hlt := x.bits.toNat_lt
  rw [negative, decide_eq_decide]
  omega

/-- With its exponent replaced, a number keeps its sign and its fraction. -/
theorem mk_mantissa (x : Number) :
    (⟨x.bits &&& ~~~((0x7ff : UInt64) <<< 52) ||| (1022 : UInt64) <<< 52⟩ : Number) =
      ofFields x.negative 1022 x.fraction := by
  have hf := x.fraction_lt
  have hkept : (~~~((0x7ff : UInt64) <<< 52)).toNat = 2 ^ 63 + (2 ^ 52 - 1) := rfl
  have hset : ((1022 : UInt64) <<< 52).toNat = 1022 * 2 ^ 52 := rfl
  have hbits : (x.bits &&& ~~~((0x7ff : UInt64) <<< 52) ||| (1022 : UInt64) <<< 52).toNat =
      x.bits.toNat &&& 2 ^ 63 + (2 ^ 52 - 1) ||| 1022 * 2 ^ 52 := by
    rw [UInt64.toNat_or, UInt64.toNat_and, hkept, hset]
  apply ext_fields
  · have hkept : (2 ^ 63 + (2 ^ 52 - 1)) / 2 ^ 63 = 1 := by decide
    have hset : 1022 * 2 ^ 52 / 2 ^ 63 = 0 := by decide
    have hlt := x.bits.toNat_lt
    rw [negative_ofFields (by decide) hf, negative_eq, negative_eq, hbits, Nat.or_div_two_pow,
      Nat.and_div_two_pow, hkept, hset, Nat.or_zero, Nat.and_one_is_mod,
      Nat.mod_eq_of_lt (by omega)]
  · rw [exponent_ofFields (by decide) hf, exponent_eq, hbits, Nat.or_div_two_pow,
      Nat.and_div_two_pow, Nat.or_mod_two_pow, Nat.and_mod_two_pow]
    exact congrArg (· ||| 1022) (Nat.and_zero _)
  · rw [fraction_ofFields (by decide) hf, fraction_eq, hbits, Nat.or_mod_two_pow,
      Nat.and_mod_two_pow]
    have hkept : (2 ^ 63 + (2 ^ 52 - 1)) % 2 ^ 52 = 2 ^ 52 - 1 := by decide
    have hset : 1022 * 2 ^ 52 % 2 ^ 52 = 0 := by decide
    rw [hkept, hset, Nat.or_zero, Nat.and_two_pow_sub_one_eq_mod, Nat.mod_mod, fraction_eq]

/-- Which doubles are left as they are. -/
theorem special_iff (x : Number) : (x.double == .ofBits 0 || !x.double.isFinite) = true ↔
    x.exponent = 2047 ∨ x.significand = 0 := by
  have hbeq : (x.double == .ofBits 0) = x.unpacked.beq (.zero .positive) := by
    rw [← unpack_double]
    rfl
  have hfinite : x.double.isFinite = x.unpacked.isFinite := by
    rw [← unpack_double]
    rfl
  rw [hbeq, hfinite, Bool.or_eq_true, beq_iff_ne_notANumber_and_eq]
  by_cases h : x.exponent = 2047
  · by_cases hf : x.fraction = 0 <;> simp [unpacked, isNaN, isInfinite, h, hf, isFinite]
  · by_cases hs : x.significand = 0
    · rw [unpacked_of_zero h hs]
      cases x.sign <;> simp [hs]
    · simp [unpacked_of_finite h hs, h, hs, isFinite]

/-- The exponent as a 32-bit word. -/
theorem toInt_exponentWord (x : Number) :
    (x.bits >>> 52 &&& 0x7ff).toUInt32.toInt32.toInt = x.exponent := by
  have he := x.exponent_lt
  have hword : (x.bits >>> 52 &&& 0x7ff).toNat = x.exponent := by
    rw [UInt64.toNat_and, UInt64.toNat_shiftRight]
    exact Nat.and_two_pow_sub_one_eq_mod _ 11
  have hint : (x.bits >>> 52 &&& 0x7ff).toUInt32.toInt32.toInt =
      ((x.bits >>> 52 &&& 0x7ff).toUInt32.toNat : Int).bmod (2 ^ 32) :=
    BitVec.toInt_eq_toNat_bmod _
  rw [hint, UInt64.toNat_toUInt32, hword, Nat.mod_eq_of_lt (by omega), Int.bmod_eq_of_le] <;> omega

theorem exponentWord_eq_zero_iff (x : Number) :
    (x.bits >>> 52 &&& 0x7ff).toUInt32.toInt32 = 0 ↔ x.exponent = 0 := by
  rw [← Int32.toInt_inj, toInt_exponentWord]
  exact Int.natCast_eq_zero

theorem split?_of_special (h : x.exponent = 2047 ∨ x.significand = 0) :
    split? (rounds + 1) x.double = some (x.double, 0) := by
  rw [split?, if_pos ((special_iff x).2 h)]

/-- One round of the recursion. -/
theorem split?_of_finite (h : x.exponent ≠ 2047) (hs : x.significand ≠ 0) :
    split? (rounds + 1) x.double =
      if x.exponent = 0 then do
        let (mantissa, e) ← split? rounds (x.double * .ofBits 0x43f0000000000000)
        return (mantissa, ← sub? e 64)
      else do
        let e ← sub? (x.bits >>> 52 &&& 0x7ff).toUInt32.toInt32 1022
        return ((ofFields x.negative 1022 x.fraction).double, e) := by
  have hnan : x.isNaN = false := by simp [isNaN, h]
  have hspecial : ¬(x.double == .ofBits 0 || !x.double.isFinite) = true := by
    rw [special_iff]
    omega
  rw [split?, if_neg hspecial]
  simp only [toBits_double hnan, exponentWord_eq_zero_iff, ← mk_mantissa]
  rfl

theorem split?_of_normal (rounds : Nat) (h0 : x.exponent ≠ 0) (h : x.exponent ≠ 2047) :
    ∃ e, split? (rounds + 1) x.double =
        some ((ofFields x.negative 1022 x.fraction).double, e) ∧
      e.toInt = x.exponent - 1022 := by
  have hs := le_significand h0
  have hlt := x.exponent_lt
  have hsub : (x.bits >>> 52 &&& 0x7ff).toUInt32.toInt32.toInt - (1022 : Int32).toInt =
      x.exponent - 1022 := by
    rw [toInt_exponentWord]
    rfl
  obtain ⟨e, he, hval⟩ := sub?_of_fits hsub (by omega) (by omega)
  refine ⟨e, ?_, hval⟩
  rw [split?_of_finite h (by omega), if_neg h0, he]
  rfl

theorem isTwoPow_scaleUp : IsTwoPow ⟨0x43f0000000000000⟩ 64 :=
  ⟨by decide, by decide, by decide, by decide⟩

theorem isTwoPow_word : IsTwoPow ⟨0x41e0000000000000⟩ 31 :=
  ⟨by decide, by decide, by decide, by decide⟩

def leadingBits (x : Number) : Nat := x.significand * 2 ^ (52 - x.significand.log2)

theorem log2_significand_le (x : Number) : x.significand.log2 ≤ 52 := by
  by_cases hs : x.significand = 0
  · rw [hs]
    decide
  · exact Nat.le_of_lt_succ ((Nat.log2_lt hs).2 x.significand_lt)

theorem leadingBits_bounds (hs : x.significand ≠ 0) :
    2 ^ 52 ≤ x.leadingBits ∧ x.leadingBits < 2 ^ 53 :=
  leading_bounds hs x.log2_significand_le

theorem leadingBits_mul (x : Number) :
    x.leadingBits * 2 ^ x.significand.log2 = x.significand * 2 ^ 52 := by
  have hlog := x.log2_significand_le
  rw [leadingBits, mul_assoc, ← pow_add, Nat.sub_add_cancel hlog]

def scaledUp (x : Number) : Number :=
  ofFields x.negative (x.significand.log2 + 13) (x.leadingBits - 2 ^ 52)

theorem scaledUp_fields (hs : x.significand ≠ 0) : x.scaledUp.negative = x.negative ∧
    x.scaledUp.exponent = x.significand.log2 + 13 ∧
    x.scaledUp.fraction = x.leadingBits - 2 ^ 52 := by
  have hlog := x.log2_significand_le
  obtain ⟨hlo, hhi⟩ := leadingBits_bounds hs
  have he : x.significand.log2 + 13 < 2 ^ 11 := by omega
  have hf : x.leadingBits - 2 ^ 52 < 2 ^ 52 := by omega
  exact ⟨negative_ofFields he hf, exponent_ofFields he hf, fraction_ofFields he hf⟩

theorem mul_scaleUp (h : x.exponent = 0) (hs : x.significand ≠ 0) :
    x.double * .ofBits 0x43f0000000000000 = x.scaledUp.double := by
  have hlog := x.log2_significand_le
  obtain ⟨hlo, hhi⟩ := leadingBits_bounds hs
  obtain ⟨hn, he, hf⟩ := scaledUp_fields hs
  have h0 : x.scaledUp.exponent ≠ 0 := by omega
  have hup : x.scaledUp.significand = x.leadingBits := by
    rw [significand, if_neg h0, hf, Nat.one_shiftLeft, Nat.sub_add_cancel hlo]
  apply mul_double_of_exact (j := x.significand.log2) isTwoPow_scaleUp (by omega) hs
  · omega
  · exact h0
  · exact hn
  · rw [hup, leadingBits_mul]
  · rw [scale, scale, he, h]
    push_cast
    omega

theorem split?_of_subnormal (rounds : Nat) (h : x.exponent = 0) (hs : x.significand ≠ 0) :
    ∃ e, split? (rounds + 2) x.double =
        some ((ofFields x.negative 1022 (x.leadingBits - 2 ^ 52)).double, e) ∧
      e.toInt = x.significand.log2 - 1073 := by
  have hlog := x.log2_significand_le
  obtain ⟨hn, he, hf⟩ := scaledUp_fields hs
  -- what was scaled up is normal, so that the next round is the last
  obtain ⟨e, hsplit, hval⟩ := split?_of_normal rounds (x := x.scaledUp) (by omega) (by omega)
  have hsub : e.toInt - (64 : Int32).toInt = x.significand.log2 - 1073 := by
    rw [hval, he, show (64 : Int32).toInt = 64 by rfl]
    push_cast
    omega
  obtain ⟨e', he', hval'⟩ := sub?_of_fits hsub (by omega) (by omega)
  refine ⟨e', ?_, hval'⟩
  rw [split?_of_finite (by omega) hs, if_pos h, mul_scaleUp h hs, hsplit, hn, hf]
  simp only [Option.bind_eq_bind, Option.bind_some, he']
  rfl

/-- The split of any finite number other than zero. Two rounds are enough for it, and no operation
overflows. -/
theorem split?_eq (rounds : Nat) (h : x.exponent ≠ 2047) (hs : x.significand ≠ 0) :
    ∃ e, split? (rounds + 2) x.double =
        some ((ofFields x.negative 1022 (x.leadingBits - 2 ^ 52)).double, e) ∧
      e.toInt = x.significand.log2 + 1 + x.scale := by
  by_cases h0 : x.exponent = 0
  · obtain ⟨e, hsplit, hval⟩ := split?_of_subnormal rounds h0 hs
    refine ⟨e, hsplit, ?_⟩
    rw [hval, scale, h0]
    omega
  · obtain ⟨e, hsplit, hval⟩ := split?_of_normal (rounds + 1) h0 h
    have hlog : x.significand.log2 = 52 :=
      (Nat.log2_eq_iff hs).2 ⟨le_significand h0, x.significand_lt⟩
    have hfraction : x.leadingBits - 2 ^ 52 = x.fraction := by
      rw [leadingBits, hlog, significand, if_neg h0, Nat.one_shiftLeft]
      omega
    rw [hfraction]
    refine ⟨e, hsplit, ?_⟩
    rw [hval, hlog, scale]
    omega

/-- A mantissa scaled to 31 bits, without its fractional part. -/
theorem toInt_mul_word (x : Number) {f : Nat} (hf : f < 2 ^ 52) :
    ((ofFields x.negative 1022 f).double * .ofBits 0x41e0000000000000).toInt64.toInt =
      x.signed ((f + 2 ^ 52) / 2 ^ 22) := by
  have hs : (ofFields x.negative 1022 f).significand = f + 2 ^ 52 :=
    significand_ofFields (by decide) (by decide) hf
  have hz : (ofFields x.negative 1053 f).exponent = 1053 := exponent_ofFields (by decide) hf
  have hz' : (ofFields x.negative 1053 f).significand = f + 2 ^ 52 :=
    significand_ofFields (by decide) (by decide) hf
  have hscale : (ofFields x.negative 1053 f).scale = -(22 : Nat) :=
    scale_ofFields (by decide) (by decide) hf
  have hproduct : (ofFields x.negative 1022 f).double * .ofBits 0x41e0000000000000 =
      (ofFields x.negative 1053 f).double := by
    apply mul_double_of_exact (j := 52) isTwoPow_word
    · rw [exponent_ofFields (by decide) hf]
      decide
    · omega
    · omega
    · omega
    · rw [negative_ofFields (by decide) hf, negative_ofFields (by decide) hf]
    · rw [hs, hz']
    · rw [hscale, scale_ofFields (by decide) (by decide) hf]
      rfl
  rw [hproduct, toInt_toInt64_double (by omega) (by omega) hscale, hz', signed,
    negative_ofFields (by decide) hf, signed]

/-- The leading 31 bits, whichever way they are cut out. -/
theorem shiftRight_log2 (x : Number) :
    (x.significand <<< 30) >>> x.significand.log2 = x.leadingBits / 2 ^ 22 := by
  have hlog := x.log2_significand_le
  have hp : 0 < 2 ^ (52 - x.significand.log2) := Nat.two_pow_pos _
  calc (x.significand <<< 30) >>> x.significand.log2
      = x.significand * 2 ^ 30 / 2 ^ x.significand.log2 := by
        rw [Nat.shiftLeft_eq, Nat.shiftRight_eq_div_pow]
    _ = x.significand * 2 ^ 30 * 2 ^ (52 - x.significand.log2) /
          (2 ^ x.significand.log2 * 2 ^ (52 - x.significand.log2)) :=
        (Nat.mul_div_mul_right _ _ hp).symm
    _ = x.leadingBits * 2 ^ 30 / (2 ^ 22 * 2 ^ 30) := by
        rw [← pow_add, ← pow_add, Nat.add_sub_cancel' hlog, leadingBits, Nat.mul_right_comm]
    _ = x.leadingBits / 2 ^ 22 := Nat.mul_div_mul_right _ _ (by decide)

theorem machineHash?_of_split {d m : Float.Model} {e : Int32}
    (h : split? rounds d = some (m, e)) : (machineHash? rounds d).map UInt32.toNat = some (foldSign
      (((m * .ofBits 0x41e0000000000000).toInt64.toInt + e.toInt).bmod (2 ^ 32))) := by
  rw [machineHash?, h]
  simp only [Option.bind_eq_bind, Option.bind_some]
  rw [fold?_eq, Int32.toInt_add, Int64.toInt_toInt32, Int.bmod_add_bmod]

theorem isZero_iff (x : Number) : x.isZero = true ↔ x.significand = 0 := by
  rw [isZero, Bool.and_eq_true, beq_iff_eq, beq_iff_eq]
  by_cases h : x.exponent = 0
  · rw [significand, if_pos h]
    exact and_iff_right h
  · have hlo := le_significand h
    constructor
    · rintro ⟨h', -⟩
      exact absurd h' h
    · omega

theorem hash_of_finite (h : x.exponent ≠ 2047) (hs : x.significand ≠ 0) : x.hash =
    foldSign ((x.signed (x.leadingBits / 2 ^ 22) + (x.significand.log2 + 1 + x.scale)).bmod
      (2 ^ 32)) := by
  have hzero : x.isZero = false := by
    rw [Bool.eq_false_iff, Ne, isZero_iff]
    exact hs
  have hnan : x.isNaN = false := by simp [isNaN, h]
  have hinfinite : x.isInfinite = false := by simp [isInfinite, h]
  have hword : 0x100000000 = 2 ^ 32 := by decide
  simp only [hash, hzero, hnan, hinfinite, Bool.or_self, Bool.false_eq_true, if_false,
    shiftRight_log2, hword]

theorem hash_of_infinite (h : x.isInfinite = true) :
    x.hash = foldSign (x.double.toInt64.toInt.bmod (2 ^ 32)) := by
  have hfields : x.exponent = 2047 ∧ x.fraction = 0 := by simpa [isInfinite] using h
  have hzero : x.isZero = false := by simp [isZero, hfields]
  have hnan : x.isNaN = false := by simp [isNaN, hfields]
  -- the clamped integral part leaves 0 or -1 in the low word
  have hmin : foldSign (Int64.minValue.toInt.bmod (2 ^ 32)) = 0 := by
    rw [Int64.toInt_minValue]
    decide
  have hmax : foldSign (Int64.maxValue.toInt.bmod (2 ^ 32)) = 1 := by
    rw [Int64.toInt_maxValue]
    decide
  rw [toInt64_of_isInfinite h]
  simp only [hash, hzero, hnan, h, Bool.or_self, Bool.false_eq_true, if_false, if_true]
  split_ifs
  · exact hmin.symm
  · exact hmax.symm

theorem hash_of_special (h : x.exponent = 2047 ∨ x.significand = 0) :
    x.hash = foldSign (x.double.toInt64.toInt.bmod (2 ^ 32)) := by
  have hfold : foldSign ((0 : Int64).toInt.bmod (2 ^ 32)) = 0 := by
    rw [Int64.toInt_zero]
    decide
  by_cases he : x.exponent = 2047
  · by_cases hf : x.fraction = 0
    · exact hash_of_infinite (by simp [isInfinite, he, hf])
    · have hnan : x.isNaN = true := by simp [isNaN, he, hf]
      rw [toInt64_of_isNaN hnan, hfold, hash, hnan, Bool.or_true, if_pos rfl]
  · have hs := h.resolve_left he
    have hzero : x.isZero = true := x.isZero_iff.2 hs
    rw [toInt64_of_zero he hs, hfold, hash, hzero, Bool.true_or, if_pos rfl]

theorem machineHash?_double (rounds : Nat) (x : Number) :
    (machineHash? (rounds + 2) x.double).map UInt32.toNat = some x.hash := by
  by_cases hspecial : x.exponent = 2047 ∨ x.significand = 0
  · have hzero : (0 : Int32).toInt = 0 := rfl
    have hkept : x.double * .ofBits 0x41e0000000000000 = x.double :=
      mul_double_of_special isTwoPow_word hspecial
    rw [machineHash?_of_split (split?_of_special hspecial), hash_of_special hspecial, hkept, hzero,
      add_zero]
  · obtain ⟨h, hs⟩ := not_or.1 hspecial
    obtain ⟨hlo, hhi⟩ := leadingBits_bounds hs
    obtain ⟨e, hsplit, hval⟩ := split?_eq rounds h hs
    rw [machineHash?_of_split hsplit, toInt_mul_word x (by omega), Nat.sub_add_cancel hlo, hval,
      hash_of_finite h hs]

/-- Every double has a hash: the computation ends within two rounds and no operation of it
overflows. It is the one that tables use. -/
theorem exists_machineHash? (x : Number) :
    ∃ word, (∀ rounds, machineHash? (rounds + 2) x.double = some word) ∧ word.toNat = x.hash := by
  obtain ⟨word, -, hhash⟩ := Option.map_eq_some_iff.1 (machineHash?_double 0 x)
  refine ⟨word, fun rounds => ?_, hhash⟩
  obtain ⟨word', hword', hhash'⟩ := Option.map_eq_some_iff.1 (machineHash?_double rounds x)
  rw [hword', UInt32.toNat_inj.1 (hhash'.trans hhash.symm)]

/-- The sum of mantissa and exponent wraps to the least word. -/
example : hash ⟨0x3fffffffffc00000⟩ = 0 := by decide

end LuaData.Number
