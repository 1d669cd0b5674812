import LuaData.Instruction
import Mathlib

namespace LuaData

theorem toNat_mod_of_lt {k : Nat} (hk : k < 32) : (UInt32.ofNat k).toNat % 32 = k := by
  rw [UInt32.toNat_ofNat']
  omega

theorem testBit_shiftLeft (x : UInt32) {k : Nat} (hk : k < 32) (n : Nat) :
    (x <<< UInt32.ofNat k).toNat.testBit n =
      (decide (n < 32) && (decide (k ≤ n) && x.toNat.testBit (n - k))) := by
  rw [UInt32.toNat_shiftLeft, toNat_mod_of_lt hk, Nat.testBit_mod_two_pow, Nat.testBit_shiftLeft]

theorem testBit_shiftRight (x : UInt32) {k : Nat} (hk : k < 32) (n : Nat) :
    (x >>> UInt32.ofNat k).toNat.testBit n = x.toNat.testBit (k + n) := by
  rw [UInt32.toNat_shiftRight, toNat_mod_of_lt hk, Nat.testBit_shiftRight]

theorem testBit_not (x : UInt32) (n : Nat) :
    (~~~x).toNat.testBit n = (decide (n < 32) && !x.toNat.testBit n) := by
  have hx : UInt32.size - 1 - x.toNat = 2 ^ 32 - (x.toNat + 1) := by
    rw [UInt32.size]
    omega
  rw [UInt32.toNat_not, hx, Nat.testBit_two_pow_sub_succ x.toNat_lt]

namespace Field

variable {f g : Field}

def Has (f : Field) (n : Nat) : Prop := f.position ≤ n ∧ n < f.position + f.size

instance (f : Field) (n : Nat) : Decidable (f.Has n) := inferInstanceAs (Decidable (_ ∧ _))

def Apart (f g : Field) : Prop := ∀ n, f.Has n → ¬g.Has n

theorem Apart.symm (h : f.Apart g) : g.Apart f := fun n hg hf => h n hf hg

theorem apart_iff :
    f.Apart g ↔ f.position + f.size ≤ g.position ∨ g.position + g.size ≤ f.position := by
  have hf := f.size_pos
  have hg := g.size_pos
  constructor
  · intro h
    -- of two runs that overlap, the later one starts inside the other
    have hlast := h (max f.position g.position)
    simp only [Has] at hlast
    omega
  · intro h n hn hn'
    rw [Has] at hn hn'
    omega

instance (f g : Field) : Decidable (f.Apart g) := decidable_of_iff _ apart_iff.symm

theorem position_lt (f : Field) : f.position < 32 := by
  have hsize := f.size_pos
  have hend := f.end_le
  omega

theorem testBit_ones {size position : Nat} (hs : size < 32) (hp : position < 32)
    (he : position + size ≤ 32) (n : Nat) :
    (ones size position).toNat.testBit n =
      decide (position ≤ n ∧ n < position + size) := by
  rw [ones, testBit_shiftLeft _ hp, testBit_not, testBit_shiftLeft _ hs, testBit_not,
    Bool.eq_iff_iff]
  simp
  omega

theorem testBit_mask (f : Field) (n : Nat) : f.mask.toNat.testBit n = decide (f.Has n) :=
  testBit_ones f.size_lt f.position_lt f.end_le n

end Field

namespace Instruction

variable {w w' : Instruction} {f g : Field}

/-- What a field reads, bit by bit. -/
theorem testBit_get (w : Instruction) (f : Field) (n : Nat) :
    (w.get f).testBit n = (decide (n < f.size) && w.word.toNat.testBit (f.position + n)) := by
  have hlow : decide (0 ≤ n ∧ n < 0 + f.size) = decide (n < f.size) := by simp
  rw [get, UInt32.toNat_and, Nat.testBit_and, testBit_shiftRight _ f.position_lt,
    Field.testBit_ones f.size_lt (by decide) (by have := f.size_lt; omega), hlow, Bool.and_comm]

/-- The bits after a field was replaced: those of the value in the field, the old ones elsewhere. -/
theorem testBit_set (w : Instruction) (f : Field) (v n : Nat) :
    (w.set f v).word.toNat.testBit n =
      if f.Has n then v.testBit (n - f.position) else w.word.toNat.testBit n := by
  have hend := f.end_le
  have hbit : ¬n < 32 → w.word.toNat.testBit n = false := fun hn =>
    Nat.testBit_lt_two_pow
      (Nat.lt_of_lt_of_le w.word.toNat_lt (Nat.pow_le_pow_right (by decide) (by omega)))
  simp only [set, UInt32.toNat_or, UInt32.toNat_and, Nat.testBit_or, Nat.testBit_and, testBit_not,
    Field.testBit_mask, testBit_shiftLeft _ f.position_lt, UInt32.toNat_ofNat',
    Nat.testBit_mod_two_pow]
  split_ifs with hn
  · have hlt : n < 32 := by rw [Field.Has] at hn; omega
    have hle : f.position ≤ n := hn.1
    have hsub : n - f.position < 32 := by omega
    simp [hn, hlt, hle, hsub]
  · by_cases hlt : n < 32 <;> simp [hn, hlt, hbit]

theorem get_set (w : Instruction) (f : Field) (v : Nat) : (w.set f v).get f = v % 2 ^ f.size := by
  apply Nat.eq_of_testBit_eq
  intro n
  rw [testBit_get, testBit_set, Nat.testBit_mod_two_pow]
  by_cases hn : n < f.size
  · have hhas : f.Has (f.position + n) := ⟨by omega, by omega⟩
    rw [if_pos hhas, Nat.add_sub_cancel_left]
  · simp [hn]

theorem get_set_of_apart (h : f.Apart g) (w : Instruction) (v : Nat) :
    (w.set f v).get g = w.get g := by
  apply Nat.eq_of_testBit_eq
  intro n
  rw [testBit_get, testBit_get, testBit_set]
  by_cases hn : n < g.size
  · have hhas : g.Has (g.position + n) := ⟨by omega, by omega⟩
    rw [if_neg (h.symm _ hhas)]
  · simp [hn]

/-- A field as a number: the word without the bits below the field, cut to its size. -/
theorem get_eq (w : Instruction) (f : Field) :
    w.get f = w.word.toNat / 2 ^ f.position % 2 ^ f.size := by
  apply Nat.eq_of_testBit_eq
  intro n
  rw [testBit_get, Nat.testBit_mod_two_pow, Nat.testBit_div_two_pow, Nat.add_comm]

theorem bx_eq (w : Instruction) : w.bx = w.c + 512 * w.b := by
  simp only [bx, b, c, get_eq, Field.bx, Field.b, Field.c]
  omega

theorem ax_eq (w : Instruction) : w.ax = w.a + 256 * w.bx := by
  simp only [ax, a, bx, get_eq, Field.ax, Field.a, Field.bx]
  omega

theorem toNat_word (w : Instruction) : w.word.toNat = w.opcodeNumber + 64 * w.ax := by
  have hw := w.word.toNat_lt
  simp only [opcodeNumber, ax, get_eq, Field.op, Field.ax]
  omega

theorem ext_ax (ho : w.opcodeNumber = w'.opcodeNumber) (hx : w.ax = w'.ax) : w = w' := by
  have hword : w.word = w'.word := by
    apply UInt32.toNat_inj.1
    rw [toNat_word, toNat_word, ho, hx]
  cases w
  exact congrArg mk hword

theorem ext_abx (ho : w.opcodeNumber = w'.opcodeNumber) (ha : w.a = w'.a) (hx : w.bx = w'.bx) :
    w = w' := ext_ax ho (by rw [ax_eq, ax_eq, ha, hx])

theorem ext_abc (ho : w.opcodeNumber = w'.opcodeNumber) (ha : w.a = w'.a) (hb : w.b = w'.b)
    (hc : w.c = w'.c) : w = w' := ext_abx ho ha (by rw [bx_eq, bx_eq, hb, hc])

theorem get_mod (w : Instruction) (f : Field) : w.get f % 2 ^ f.size = w.get f := by
  rw [get_eq, Nat.mod_mod]

/-- The opcode of a word is the one whose number the word holds. -/
theorem number_of_opcode? {o : Opcode} (h : w.opcode? = some o) : o.number = w.opcodeNumber := by
  obtain ⟨hlt, ho⟩ := List.getElem?_eq_some_iff.1 h
  rw [← ho]
  exact List.Nodup.idxOf_getElem (by decide) w.opcodeNumber hlt

/-- What is read from words that were put together field by field. -/
theorem ofABC_fields (o : Opcode) (x y z : Nat) :
    (ofABC o x y z).opcodeNumber = o.number % 2 ^ 6 ∧ (ofABC o x y z).a = x % 2 ^ 8 ∧
      (ofABC o x y z).b = y % 2 ^ 9 ∧ (ofABC o x y z).c = z % 2 ^ 9 := by
  simp (disch := decide) only [ofABC, ofOpcode, opcodeNumber, a, b, c, get_set_of_apart]
  exact ⟨get_set .., get_set .., get_set .., get_set ..⟩

theorem ofABx_fields (o : Opcode) (x y : Nat) :
    (ofABx o x y).opcodeNumber = o.number % 2 ^ 6 ∧ (ofABx o x y).a = x % 2 ^ 8 ∧
      (ofABx o x y).bx = y % 2 ^ 18 := by
  simp (disch := decide) only [ofABx, ofOpcode, opcodeNumber, a, bx, get_set_of_apart]
  exact ⟨get_set .., get_set .., get_set ..⟩

theorem ofAx_fields (o : Opcode) (x : Nat) :
    (ofAx o x).opcodeNumber = o.number % 2 ^ 6 ∧ (ofAx o x).ax = x % 2 ^ 26 := by
  simp (disch := decide) only [ofAx, ofOpcode, opcodeNumber, ax, get_set_of_apart]
  exact ⟨get_set .., get_set ..⟩

theorem sbx_ofAsBx (o : Opcode) (x : Nat) {n : Int} (hlo : -131071 ≤ n) (hhi : n ≤ 131072) :
    (ofAsBx o x n).sbx = n := by
  have hbx : (ofAsBx o x n).bx = ((n + 131071) % 262144).toNat % 2 ^ 18 := get_set ..
  rw [sbx, hbx, sbxOffset]
  omega

/-- A field is any run of 1 to 31 bits; the six of the layouts are such, overlaps included. Whatever
is written into one is read back, cut to its size, and no bit outside it changes. `Bx` is made of
`C` and `B`, `Ax` of `A` and `Bx`, and a word with a valid opcode is what any of the layouts makes
of its fields. A signed operand within its range is read back as it was given. -/
theorem fields_laws (w : Instruction) :
    (∀ f v, (w.set f v).get f = v % 2 ^ f.size ∧
      (∀ n, ¬f.Has n → (w.set f v).word.toNat.testBit n = w.word.toNat.testBit n) ∧
      ∀ g, f.Apart g → (w.set f v).get g = w.get g) ∧
    w.bx = w.c + 512 * w.b ∧ w.ax = w.a + 256 * w.bx ∧
    (∀ o, w.opcode? = some o →
      ofABC o w.a w.b w.c = w ∧ ofABx o w.a w.bx = w ∧ ofAx o w.ax = w) ∧
    ∀ o x n, -131071 ≤ n → n ≤ 131072 → (ofAsBx o x n).sbx = n := by
  refine ⟨fun f v => ⟨get_set w f v, fun n hn => ?_, fun g h => get_set_of_apart h w v⟩,
    bx_eq w, ax_eq w, fun o ho => ?_, fun o x n hlo hhi => sbx_ofAsBx o x hlo hhi⟩
  · rw [testBit_set, if_neg hn]
  · have hop : o.number % 2 ^ 6 = w.opcodeNumber := by
      rw [number_of_opcode? ho]
      exact get_mod w .op
    refine ⟨?_, ?_, ?_⟩
    · obtain ⟨h, ha, hb, hc⟩ := ofABC_fields o w.a w.b w.c
      exact ext_abc (h.trans hop) (ha.trans (get_mod w .a)) (hb.trans (get_mod w .b))
        (hc.trans (get_mod w .c))
    · obtain ⟨h, ha, hx⟩ := ofABx_fields o w.a w.bx
      exact ext_abx (h.trans hop) (ha.trans (get_mod w .a)) (hx.trans (get_mod w .bx))
    · obtain ⟨h, hx⟩ := ofAx_fields o w.ax
      exact ext_ax (h.trans hop) (hx.trans (get_mod w .ax))

/-- A call with all ones in `B` and `C`, a `B` that is too great, and the least signed operand. -/
theorem fields_laws_call :
    let w : Instruction := ⟨0xFFFFC05D⟩
    ¬Field.b.Has 22 ∧ Field.b.Apart .c ∧ w.opcode? = some .call ∧
      (w.set .b 0x12345).get .b = 325 ∧ (w.set .b 0x12345).word.toNat.testBit 22 = true ∧
      (w.set .b 0x12345).get .c = 511 ∧ ofABC .call w.a w.b w.c = w ∧
      ofABx .call w.a w.bx = w ∧ ofAx .call w.ax = w ∧
      (ofAsBx .forLoop 300 (-131071)).sbx = -131071 := by
  intro w
  obtain ⟨hset, -, -, hmake, hsbx⟩ := fields_laws w
  obtain ⟨hget, hbits, hapart⟩ := hset .b 0x12345
  have hbit : ¬Field.b.Has 22 := by decide
  have hbc : Field.b.Apart .c := by decide
  have hop : w.opcode? = some .call := by decide
  obtain ⟨habc, habx, hax⟩ := hmake .call hop
  exact ⟨hbit, hbc, hop, hget, (hbits 22 hbit).trans (by decide), (hapart .c hbc).trans (by decide),
    habc, habx, hax, hsbx .forLoop 300 (-131071) (by decide) (by decide)⟩

end Instruction

end LuaData
