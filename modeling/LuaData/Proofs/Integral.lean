import LuaData.Number
import Mathlib.Algebra.Order.Ring.Nat

namespace LuaData.Number

theorem exponent_eq (x : Number) : x.exponent = x.bits.toNat / 2 ^ 52 % 2 ^ 11 := by
  rw [exponent, Nat.shiftRight_eq_div_pow]
  rfl

theorem fraction_eq (x : Number) : x.fraction = x.bits.toNat % 2 ^ 52 := by
  rw [fraction, Nat.one_shiftLeft]

theorem magnitudeBits_eq {n : Nat} (hn : n ≠ 0) (htop : n.log2 < 1024) :
    magnitudeBits n = (n.log2 + 1022) * 2 ^ 52 + leading n n.log2 := by
  rw [magnitudeBits, if_neg hn, if_neg (by omega), Nat.shiftLeft_eq]

/-- A double is its sign, its exponent and its fraction. -/
theorem toNat_bits (x : Number) :
    x.bits.toNat = (if x.negative then 2 ^ 63 else 0) + x.exponent * 2 ^ 52 + x.fraction := by
  have h := x.bits.toNat_lt
  rw [exponent_eq, fraction_eq, negative]
  split_ifs with hn <;> simp only [decide_eq_true_eq] at hn <;> omega

theorem fraction_lt (x : Number) : x.fraction < 2 ^ 52 := Nat.mod_lt _ (by decide)

theorem exponent_lt (x : Number) : x.exponent < 2 ^ 11 := Nat.mod_lt _ (by decide)

theorem roundShift_le {n drop b : Nat} (h : n < b * 2 ^ drop) : roundShift n drop ≤ b := by
  have hq : n >>> drop < b := by
    rw [Nat.shiftRight_eq_div_pow]
    exact Nat.div_lt_of_lt_mul (by rwa [Nat.mul_comm])
  unfold roundShift
  dsimp only
  split_ifs <;> omega

theorem le_roundShift (n drop : Nat) : n / 2 ^ drop ≤ roundShift n drop := by
  unfold roundShift
  dsimp only
  rw [Nat.shiftRight_eq_div_pow]
  split_ifs <;> omega

theorem roundShift_mul (n drop : Nat) : roundShift (n * 2 ^ drop) drop = n := by
  have hp : 0 < 2 ^ drop := Nat.two_pow_pos drop
  have hq : (n * 2 ^ drop) >>> drop = n := by
    rw [Nat.shiftRight_eq_div_pow, Nat.mul_div_cancel _ hp]
  have hr : n * 2 ^ drop % 2 ^ drop = 0 := Nat.mul_mod_left _ _
  rw [roundShift, hq, Nat.one_shiftLeft, hr]
  exact if_neg (by omega)

theorem leading_le (n : Nat) : leading n n.log2 ≤ 2 ^ 53 := by
  have hlt : n < 2 ^ (n.log2 + 1) := Nat.lt_log2_self
  unfold leading
  split_ifs with ht
  · have hs : (2 : Nat) ^ 53 = 2 ^ (n.log2 + 1) * 2 ^ (52 - n.log2) := by
      rw [← Nat.pow_add]
      congr 1
      omega
    rw [Nat.shiftLeft_eq, hs]
    exact Nat.mul_le_mul_right _ hlt.le
  · apply roundShift_le
    rwa [← Nat.pow_add, show 53 + (n.log2 - 52) = n.log2 + 1 by omega]

theorem magnitudeBits_le (n : Nat) : magnitudeBits n ≤ 2047 * 2 ^ 52 := by
  unfold magnitudeBits
  split_ifs with h h'
  · omega
  · omega
  · have := leading_le n
    omega

theorem toNat_bits_ofInt (n : Int) :
    (ofInt n).bits.toNat = magnitudeBits n.natAbs + if n < 0 then 2 ^ 63 else 0 := by
  have h := magnitudeBits_le n.natAbs
  rw [ofInt, UInt64.toNat_ofNat']
  apply Nat.mod_eq_of_lt
  split_ifs <;> omega

theorem negative_ofInt (n : Int) : (ofInt n).negative = decide (n < 0) := by
  have h := magnitudeBits_le n.natAbs
  rw [negative, toNat_bits_ofInt]
  split_ifs with hn <;> simp only [hn, decide_true, decide_false, decide_eq_true_eq,
    decide_eq_false_iff_not] <;> omega

theorem exponent_ofInt (n : Int) : (ofInt n).exponent = magnitudeBits n.natAbs / 2 ^ 52 := by
  have h := magnitudeBits_le n.natAbs
  rw [exponent_eq, toNat_bits_ofInt]
  split_ifs <;> omega

theorem fraction_ofInt (n : Int) : (ofInt n).fraction = magnitudeBits n.natAbs % 2 ^ 52 := by
  have h := magnitudeBits_le n.natAbs
  rw [fraction_eq, toNat_bits_ofInt]
  split_ifs <;> omega

theorem isNaN_ofInt (n : Int) : (ofInt n).isNaN = false := by
  have h := magnitudeBits_le n.natAbs
  simp only [isNaN, exponent_ofInt, fraction_ofInt, Bool.and_eq_false_iff, beq_eq_false_iff_ne,
    bne_eq_false_iff_eq, ne_eq]
  omega

/-- An integer of at most 53 bits, shifted up to 53 bits, is its own significand. -/
theorem leading_eq {n : Nat} (h : n.log2 ≤ 52) : leading n n.log2 = n * 2 ^ (52 - n.log2) := by
  rw [leading, if_pos h, Nat.shiftLeft_eq]

theorem leading_bounds {n : Nat} (hn : n ≠ 0) (h : n.log2 ≤ 52) :
    2 ^ 52 ≤ n * 2 ^ (52 - n.log2) ∧ n * 2 ^ (52 - n.log2) < 2 ^ 53 := by
  have hlo : 2 ^ n.log2 ≤ n := Nat.log2_self_le hn
  have hhi : n < 2 ^ (n.log2 + 1) := Nat.lt_log2_self
  have hp : 0 < 2 ^ (52 - n.log2) := Nat.two_pow_pos _
  constructor
  · calc 2 ^ 52 = 2 ^ n.log2 * 2 ^ (52 - n.log2) := by rw [← Nat.pow_add]; congr 1; omega
      _ ≤ n * 2 ^ (52 - n.log2) := Nat.mul_le_mul_right _ hlo
  · calc n * 2 ^ (52 - n.log2) < 2 ^ (n.log2 + 1) * 2 ^ (52 - n.log2) :=
          Nat.mul_lt_mul_of_pos_right hhi hp
      _ = 2 ^ 53 := by rw [← Nat.pow_add]; congr 1; omega

/-- The doubles of integers of at most 53 bits lie below those of all greater ones. -/
theorem magnitudeBits_lt {n : Nat} (h : n < 2 ^ 53) : magnitudeBits n < 1076 * 2 ^ 52 := by
  rcases eq_or_ne n 0 with rfl | hn
  · decide
  have htop : n.log2 ≤ 52 := Nat.le_of_lt_succ ((Nat.log2_lt hn).2 h)
  obtain ⟨-, hhi⟩ := leading_bounds hn htop
  rw [magnitudeBits_eq hn (by omega), leading_eq htop]
  omega

theorem le_magnitudeBits {n : Nat} (h : 2 ^ 53 ≤ n) : 1076 * 2 ^ 52 ≤ magnitudeBits n := by
  have hn : n ≠ 0 := by omega
  have htop : 53 ≤ n.log2 := (Nat.le_log2 hn).2 h
  by_cases hlt : n.log2 < 1024
  · have hlead : 2 ^ 52 ≤ leading n n.log2 := by
      rw [leading, if_neg (by omega)]
      refine le_trans ?_ (le_roundShift n (n.log2 - 52))
      rw [Nat.le_div_iff_mul_le (Nat.two_pow_pos _), ← Nat.pow_add,
        show 52 + (n.log2 - 52) = n.log2 by omega]
      exact Nat.log2_self_le hn
    rw [magnitudeBits_eq hn hlt]
    omega
  · rw [magnitudeBits, if_neg hn, if_pos (by omega)]
    decide

theorem signed_ofInt (n : Int) : (ofInt n).signed n.natAbs = n := by
  rw [signed, negative_ofInt]
  split_ifs with hn <;> simp only [decide_eq_true_eq] at hn <;> omega

theorem toInt?_of_isZero {x : Number} (h : x.isZero = true) : x.toInt? = some 0 := by
  obtain ⟨he, hf⟩ : x.exponent = 0 ∧ x.fraction = 0 := by simpa [isZero] using h
  have hs : x.significand = 0 := by rw [significand, if_pos he, hf]
  have hz : x.signed 0 = 0 := by simp [signed]
  rw [toInt?, hs, if_neg (by omega)]
  dsimp only
  rw [Nat.zero_shiftLeft, Nat.zero_shiftRight, Nat.zero_mod, if_pos rfl, hz, ite_self]

/-- Integers of at most 53 bits are doubles. -/
theorem toInt?_ofInt {n : Int} (h : n.natAbs < 2 ^ 53) : (ofInt n).toInt? = some n := by
  rcases eq_or_ne n 0 with rfl | hn
  · exact toInt?_of_isZero (by decide)
  have hn' : n.natAbs ≠ 0 := Int.natAbs_ne_zero.2 hn
  have htop : n.natAbs.log2 ≤ 52 := Nat.le_of_lt_succ ((Nat.log2_lt hn').2 h)
  obtain ⟨hlo, hhi⟩ := leading_bounds hn' htop
  -- the leading bit of the significand carries into the exponent
  have hm : magnitudeBits n.natAbs =
      (n.natAbs.log2 + 1022) * 2 ^ 52 + n.natAbs * 2 ^ (52 - n.natAbs.log2) := by
    rw [magnitudeBits_eq hn' (by omega), leading_eq htop]
  have he : (ofInt n).exponent = n.natAbs.log2 + 1023 := by rw [exponent_ofInt, hm]; omega
  have hs : (ofInt n).significand = n.natAbs * 2 ^ (52 - n.natAbs.log2) := by
    rw [significand, he, if_neg (by omega), fraction_ofInt, hm]
    omega
  have hc : (ofInt n).scale = (n.natAbs.log2 : Int) - 52 := by rw [scale, he]; omega
  have hd : (-((n.natAbs.log2 : Int) - 52)).toNat = 52 - n.natAbs.log2 := by omega
  rw [toInt?, if_neg (by omega), hs, hc, hd]
  dsimp only
  split_ifs with h0 h1
  · have ht : n.natAbs.log2 = 52 := by omega
    rw [ht]
    simp [signed_ofInt]
  · rw [Nat.shiftRight_eq_div_pow, Nat.mul_div_cancel _ (Nat.two_pow_pos _), signed_ofInt]
  · rw [Nat.one_shiftLeft] at h1
    exact absurd (Nat.mul_mod_left _ _) h1

theorem toInteger?_ofInt {n : Int} (h : n.natAbs < 2 ^ 53) : (ofInt n).toInteger? = some n := by
  rw [toInteger?, toInt?_ofInt h, Option.filter_some_pos]
  simp only [decide_eq_true_eq]
  omega

/-- No integer but 0 rounds to a zero. -/
theorem eq_zero_of_isZero_ofInt {n : Int} (h : (ofInt n).isZero = true) : n = 0 := by
  by_cases hn : n.natAbs < 2 ^ 53
  · have hsome := toInt?_of_isZero h
    rw [toInt?_ofInt hn] at hsome
    exact Option.some.inj hsome
  · have hle := le_magnitudeBits (Nat.le_of_not_lt hn)
    obtain ⟨he, -⟩ : (ofInt n).exponent = 0 ∧ (ofInt n).fraction = 0 := by simpa [isZero] using h
    rw [exponent_ofInt] at he
    omega

/-- An integer of at most 53 bits shares its double with no other integer. -/
theorem eq_of_ofInt_eq {m n : Int} (hm : m.natAbs < 2 ^ 53) (he : ofInt n = ofInt m) : n = m := by
  have hbits : (ofInt n).bits.toNat = (ofInt m).bits.toNat := congrArg (fun x => x.bits.toNat) he
  rw [toNat_bits_ofInt, toNat_bits_ofInt] at hbits
  have hlt := magnitudeBits_lt hm
  have hle := magnitudeBits_le n.natAbs
  have hn : n.natAbs < 2 ^ 53 := by
    by_contra hbig
    have := le_magnitudeBits (Nat.le_of_not_lt hbig)
    split_ifs at hbits <;> omega
  have hsome := toInt?_ofInt hn
  rw [he, toInt?_ofInt hm] at hsome
  exact (Option.some.inj hsome).symm

/-- A significand of 53 bits, scaled up. -/
theorem magnitudeBits_mul {s d : Nat} (hlo : 2 ^ 52 ≤ s) (hhi : s < 2 ^ 53) (hd : d ≤ 971) :
    magnitudeBits (s * 2 ^ d) = (d + 1074) * 2 ^ 52 + s := by
  have hp : 0 < 2 ^ d := Nat.two_pow_pos d
  have hn : s * 2 ^ d ≠ 0 := (Nat.mul_pos (by omega) hp).ne'
  have hlog : (s * 2 ^ d).log2 = d + 52 := by
    rw [Nat.log2_eq_iff hn]
    constructor
    · rw [Nat.pow_add, Nat.mul_comm (2 ^ d)]
      exact Nat.mul_le_mul_right _ hlo
    · rw [show d + 52 + 1 = 53 + d by omega, Nat.pow_add]
      exact Nat.mul_lt_mul_of_pos_right hhi hp
  rw [magnitudeBits_eq hn (by omega), hlog]
  have hl : leading (s * 2 ^ d) (d + 52) = s := by
    rw [leading]
    split_ifs with h
    · obtain rfl : d = 0 := by omega
      simp
    · rw [Nat.add_sub_cancel, roundShift_mul]
  rw [hl]

/-- A significand of 53 bits, scaled down without loss. -/
theorem magnitudeBits_of_mul_eq {n d s : Nat} (h : n * 2 ^ d = s) (hlo : 2 ^ 52 ≤ s)
    (hhi : s < 2 ^ 53) : magnitudeBits n + d * 2 ^ 52 = 1074 * 2 ^ 52 + s := by
  have hp : 0 < 2 ^ d := Nat.two_pow_pos d
  have hn : n ≠ 0 := by
    rintro rfl
    omega
  have hd : d ≤ 52 := by
    by_contra hc
    have h53 : 2 ^ 53 ≤ 2 ^ d := Nat.pow_le_pow_right (by decide) (by omega)
    have := Nat.le_mul_of_pos_left (2 ^ d) (Nat.pos_of_ne_zero hn)
    omega
  have hlog : n.log2 = 52 - d := by
    rw [Nat.log2_eq_iff hn]
    constructor
    · refine Nat.le_of_mul_le_mul_right ?_ hp
      rwa [h, ← Nat.pow_add, show 52 - d + d = 52 by omega]
    · refine Nat.lt_of_mul_lt_mul_right (a := 2 ^ d) ?_
      rwa [h, ← Nat.pow_add, show 52 - d + 1 + d = 53 by omega]
  rw [magnitudeBits_eq hn (by omega), leading_eq (by omega), hlog,
    show 52 - (52 - d) = d by omega, h]
  omega

/-- What a double of integral value is made of. -/
theorem magnitudeBits_toInt? {x : Number} {n : Int} (h : x.toInt? = some n) (hn : n ≠ 0) :
    magnitudeBits n.natAbs = x.exponent * 2 ^ 52 + x.fraction ∧ x.negative = decide (n < 0) := by
  have hf := x.fraction_lt
  have he := x.exponent_lt
  rw [toInt?] at h
  dsimp only at h
  have hsign : ∀ m : Nat, x.signed m = n → m = n.natAbs ∧ x.negative = decide (n < 0) := by
    intro m hm
    rw [signed] at hm
    cases hneg : x.negative <;> simp only [hneg] at hm <;> constructor <;> simp at * <;> omega
  rw [Nat.one_shiftLeft] at h
  split_ifs at h with h1 h2 h3
  · obtain ⟨hm, hneg⟩ := hsign _ (Option.some.inj h)
    refine ⟨?_, hneg⟩
    have h0 : x.exponent ≠ 0 := by rw [scale] at h2; omega
    have hs : x.significand = x.fraction + 2 ^ 52 := if_neg h0
    rw [← hm, Nat.shiftLeft_eq, hs,
      magnitudeBits_mul (by omega) (by omega) (by rw [scale]; omega), scale]
    rw [scale] at h2
    omega
  · obtain ⟨hm, hneg⟩ := hsign _ (Option.some.inj h)
    refine ⟨?_, hneg⟩
    have hdiv : x.significand >>> (-x.scale).toNat * 2 ^ (-x.scale).toNat = x.significand := by
      rw [Nat.shiftRight_eq_div_pow]
      exact Nat.div_mul_cancel (Nat.dvd_of_mod_eq_zero h3)
    -- a subnormal number has no integral value but 0
    have h0 : x.exponent ≠ 0 := by
      intro h0
      have hs : x.significand = x.fraction := if_pos h0
      have hd : 52 < (-x.scale).toNat := by
        rw [scale, h0]
        decide
      have hlt : x.fraction < 2 ^ (-x.scale).toNat :=
        hf.trans (Nat.pow_lt_pow_right (by decide) hd)
      rw [hs, Nat.mod_eq_of_lt hlt] at h3
      rw [hs, h3, Nat.zero_shiftRight] at hm
      omega
    have hs : x.significand = x.fraction + 2 ^ 52 := if_neg h0
    have := magnitudeBits_of_mul_eq hdiv (by omega) (by omega)
    rw [hm, scale] at this
    rw [scale] at h2
    omega

/-- A number of integral value other than 0 is the double of this integer. -/
theorem ofInt_of_toInt? {x : Number} {n : Int} (h : x.toInt? = some n) (hn : n ≠ 0) :
    ofInt n = x := by
  obtain ⟨hm, hneg⟩ := magnitudeBits_toInt? h hn
  have hb : (ofInt n).bits = x.bits := by
    apply UInt64.toNat_inj.1
    rw [toNat_bits_ofInt, toNat_bits x, hm, hneg]
    simp only [decide_eq_true_eq]
    omega
  cases x
  exact congrArg mk hb

theorem isNaN_of_isZero {x : Number} (h : x.isZero = true) : x.isNaN = false := by
  obtain ⟨he, -⟩ : x.exponent = 0 ∧ x.fraction = 0 := by simpa [isZero] using h
  simp [isNaN, he]

theorem equal_iff {x y : Number} :
    x.equal y = true ↔ x.isNaN = false ∧ (x = y ∨ (x.isZero = true ∧ y.isZero = true)) := by
  have hbits : x.bits = y.bits ↔ x = y := by
    cases x
    cases y
    simp
  simp only [equal, Bool.and_eq_true, Bool.not_eq_true', Bool.or_eq_true, beq_iff_eq, hbits]
  constructor
  · rintro ⟨⟨hx, -⟩, h⟩
    exact ⟨hx, h⟩
  · rintro ⟨hx, rfl | ⟨hx0, hy0⟩⟩
    · exact ⟨⟨hx, hx⟩, .inl rfl⟩
    · exact ⟨⟨hx, isNaN_of_isZero hy0⟩, .inr ⟨hx0, hy0⟩⟩

theorem equal_comm (x y : Number) : x.equal y = y.equal x := by
  simp only [equal, Bool.and_comm, Bool.beq_comm (a := x.bits)]

end LuaData.Number
