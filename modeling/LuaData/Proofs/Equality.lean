import LuaData.Proofs.Integral
import LuaData.Table.Update

namespace LuaData

namespace Str

theorem isShort_congr {s t : Str} (h : s.bytes = t.bytes) : s.isShort = t.isShort := by
  rw [isShort, isShort, length, length, h]

theorem equal_comm (s t : Str) : s.equal t = t.equal s := by
  rw [Bool.eq_iff_iff, equal_iff, equal_iff]
  constructor <;> rintro (rfl | ⟨hs, hb⟩)
  · exact .inl rfl
  · exact .inr ⟨isShort_congr hb ▸ hs, hb.symm⟩
  · exact .inl rfl
  · exact .inr ⟨isShort_congr hb ▸ hs, hb.symm⟩

theorem equal_trans {s t u : Str} (h : s.equal t = true) (h' : t.equal u = true) :
    s.equal u = true := by
  rw [equal_iff] at *
  rcases h with rfl | ⟨hs, hb⟩
  · exact h'
  · rcases h' with rfl | ⟨-, hb'⟩
    · exact .inr ⟨hs, hb⟩
    · exact .inr ⟨hs, hb.trans hb'⟩

end Str

namespace Number

theorem equal_trans {x y z : Number} (h : x.equal y = true) (h' : y.equal z = true) :
    x.equal z = true := by
  rw [equal_iff] at *
  obtain ⟨hx, rfl | ⟨hx0, hy0⟩⟩ := h
  · exact h'
  · obtain ⟨-, rfl | ⟨-, hz0⟩⟩ := h'
    · exact ⟨hx, .inr ⟨hx0, hy0⟩⟩
    · exact ⟨hx, .inr ⟨hx0, hz0⟩⟩

theorem toInteger?_congr {x y : Number} (h : x.equal y = true) : x.toInteger? = y.toInteger? := by
  obtain ⟨-, rfl | ⟨hx, hy⟩⟩ := equal_iff.1 h
  · rfl
  · rw [toInteger?, toInteger?, toInt?_of_isZero hx, toInt?_of_isZero hy]

theorem hash_congr {x y : Number} (h : x.equal y = true) : x.hash = y.hash := by
  obtain ⟨-, rfl | ⟨hx, hy⟩⟩ := equal_iff.1 h
  · rfl
  · simp [hash, hx, hy]

end Number

namespace Value

theorem equal_comm (a b : Value) : a.equal b = b.equal a := by
  cases a <;> cases b <;> try rfl
  case boolean => exact Bool.beq_comm
  case number => exact Number.equal_comm ..
  case string => exact Str.equal_comm ..
  case lightUserdata => exact Bool.beq_comm
  case native => exact Bool.beq_comm
  case object => exact decide_eq_decide.2 eq_comm

theorem equal_trans {a b c : Value} (h : a.equal b = true) (h' : b.equal c = true) :
    a.equal c = true := by
  cases a <;> cases b <;> simp only [equal, Bool.false_eq_true] at h <;>
    cases c <;> simp only [equal, Bool.false_eq_true] at h' <;> simp only [equal]
  case number => exact Number.equal_trans h h'
  case string => exact Str.equal_trans h h'
  all_goals simp_all

/-- Equal values are equal to the same values. -/
theorem equal_left {a b : Value} (h : a.equal b = true) (c : Value) : a.equal c = b.equal c := by
  rw [Bool.eq_iff_iff]
  exact ⟨equal_trans (equal_comm a b ▸ h), equal_trans h⟩

theorem equal_right {a b : Value} (h : a.equal b = true) (c : Value) : c.equal a = c.equal b := by
  rw [equal_comm c a, equal_comm c b, equal_left h]

theorem isNil_congr {a b : Value} (h : a.equal b = true) : a.isNil = b.isNil := by
  cases a <;> cases b <;> simp_all [equal, isNil]

theorem toInteger?_congr {a b : Value} (h : a.equal b = true) : a.toInteger? = b.toInteger? := by
  cases a <;> cases b <;> simp only [equal, Bool.false_eq_true] at h <;> try rfl
  exact Number.toInteger?_congr h

/-- An integer other than 0 has one spelling. -/
theorem eq_integer {k : Value} {n : Int} (h : k.toInteger? = some n) (hn : n ≠ 0) :
    k = integer n := by
  cases k <;> try cases h
  rename_i x
  have hx : x.toInt? = some n := (Option.filter_eq_some_iff.1 h).1
  rw [integer, Number.ofInt_of_toInt? hx hn]

theorem toInteger?_integer {n : Int} (h : n.natAbs < 2 ^ 53) : (integer n).toInteger? = some n :=
  Number.toInteger?_ofInt h

/-- What may be a key: all values but nil and NaN. -/
def IsKey (k : Value) : Prop := k.isNil = false ∧ k.equal k = true

theorem IsKey.equal_self {k : Value} (h : k.IsKey) : k.equal k = true := h.2

theorem IsKey.congr {a b : Value} (h : a.IsKey) (he : a.equal b = true) : b.IsKey :=
  ⟨isNil_congr he ▸ h.1, equal_trans (equal_comm a b ▸ he) he⟩

theorem keyError?_eq_none_iff {k : Value} : Table.keyError? k = none ↔ k.IsKey := by
  cases k <;> simp [Table.keyError?, IsKey, isNil, equal, Str.equal_refl, Number.equal_iff]

theorem isKey_integer (n : Int) : (integer n).IsKey := by
  rw [← keyError?_eq_none_iff]
  simp [integer, Table.keyError?, Number.isNaN_ofInt]

/-- Integers are equal as keys if they have the same double. -/
theorem equal_integer_iff {m n : Int} :
    (integer m).equal (integer n) = true ↔ integer m = integer n := by
  constructor
  · intro he
    obtain ⟨-, he | ⟨hm, hn⟩⟩ := Number.equal_iff.1 he
    · exact congrArg Value.number he
    · rw [Number.eq_zero_of_isZero_ofInt hm, Number.eq_zero_of_isZero_ofInt hn]
  · intro he
    rw [← he]
    exact (isKey_integer m).equal_self

theorem mainPosition_congr {a b : Value} (h : SeededHash) (size : Nat) (he : a.equal b = true) :
    a.mainPosition h size = b.mainPosition h size := by
  cases a <;> cases b <;> simp only [equal, Bool.false_eq_true] at he
  case nil => rfl
  case number x y => simp only [mainPosition, Number.hash_congr he]
  case string s t => simp only [mainPosition, h.congr s t he]
  all_goals simp_all

theorem maskedTo_lt {size : Nat} (hs : 0 < size) (n : Nat) : maskedTo n size < size :=
  Nat.lt_of_le_pred hs Nat.and_le_right

/-- The odd divisor is at most the size. -/
theorem reducedTo_lt {size : Nat} (hs : 0 < size) (n : Nat) : reducedTo n size < size := by
  have hhalf : ((size - 1) ||| 1) / 2 = (size - 1) / 2 := by simp [Nat.or_div_two]
  have hodd : ((size - 1) ||| 1) % 2 = 1 := Nat.or_mod_two_eq_one.2 (.inr rfl)
  exact (Nat.mod_lt n (by omega)).trans_le (by omega)

theorem mainPosition_lt (h : StringHash) {size : Nat} (hs : 0 < size) (k : Value) :
    k.mainPosition h size < size := by
  cases k <;> simp only [mainPosition, maskedTo_lt hs, reducedTo_lt hs]
  exact hs

end Value

end LuaData
