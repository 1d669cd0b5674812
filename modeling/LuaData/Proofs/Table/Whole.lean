import LuaData.Proofs.Table.Ahead

namespace LuaData

theorem Str.equal_eq_decide {s t : Str} (ht : t.isShort = true) :
    s.equal t = decide (s = t) := by
  rw [Bool.eq_iff_iff, equal_iff, decide_eq_true_iff]
  refine or_iff_left fun ⟨hs, hb⟩ => ?_
  rw [isShort_congr hb, ht] at hs
  cases hs

/-- Short strings are equal to nothing but themselves. -/
theorem Value.equal_string {s : Str} (hs : s.isShort = true) (v : Value) :
    v.equal (.string s) = (v == .string s) := by
  rw [Bool.eq_iff_iff, beq_iff_eq]
  cases v
  case string u =>
    rw [Value.equal, Str.equal_eq_decide hs, decide_eq_true_iff]
    exact ⟨congrArg _, Value.string.inj⟩
  all_goals exact iff_of_false Bool.false_ne_true fun he => by cases he

namespace Ledger

/-- A store under a present key does not look at how the key is written. -/
theorem store_congr {m : Ledger} {k k' : Value} (he : k.equal k' = true) (hk : ∃ w, m.Holds k w)
    (v : Value) : m.store k v = m.store k' v := by
  have hover : overwrite k v = overwrite k' v :=
    funext fun e => by rw [overwrite, overwrite, Value.equal_right he]
  have hany : (m.any fun e => e.1.equal k) = true := any_iff.2 hk
  rw [store, store, hover]
  simp only [Value.equal_right he] at hany ⊢
  rw [if_pos hany, if_pos hany]

end Ledger

namespace Table

open Ledger

variable {h : SeededHash} {t t' : Table} {k v w : Value} {c : Cell} {i : Nat}

theorem whole_empty (h : SeededHash) : Whole h empty where
  valid := valid_empty
  live i hi := absurd hi (not_used_bare empty 0 0 i)

theorem Whole.slotItem?_eq (hw : Whole h t) (hi : t.Used i) :
    t.slotItem? i = some ((t.slot i).key, (t.slot i).value) := if_pos (hw.live i hi)

theorem Whole.touch_eq (hw : Whole h t) (hc : t.HasCell c) : t.touch c = t := by
  cases c with
  | array i => rfl
  | slot i => exact if_pos (hw.live i hc)

/-- There is nothing that a look-up might put at the end of the order. -/
theorem Whole.eq_of_touched (hw : Whole h t) (ht : Touched t t') : t' = t := by
  induction ht with
  | refl => rfl
  | touch c _ hc ih =>
    subst ih
    exact hw.touch_eq hc

theorem Whole.length_slotEntries (hw : Whole h t) :
    t.slotEntries.length = t.order.toList.length := by
  rw [slotEntries, List.length_filterMap_eq_countP, List.countP_eq_length]
  intro i hi
  rw [hw.slotItem?_eq ((hw.valid.member i).1 hi)]
  rfl

/-- The entries of the hash part are those of its keys. -/
theorem Whole.holds_slotEntries (hw : Whole h t) :
    Holds t.slotEntries k w ↔ ∃ i, t.Keyed (.slot i) k ∧ (t.slot i).value = w := by
  constructor
  · rintro ⟨e, he, hek, rfl⟩
    obtain ⟨i, hi, hitem⟩ := mem_slotEntries.1 he
    have hused := (hw.valid.member i).1 hi
    rw [hw.slotItem?_eq hused, Option.some.injEq] at hitem
    subst hitem
    exact ⟨i, ⟨hused, hek⟩, rfl⟩
  · rintro ⟨i, ⟨hused, hek⟩, rfl⟩
    have hmem := mem_slotEntries.2 ⟨i, (hw.valid.member i).2 hused, hw.slotItem?_eq hused⟩
    exact ⟨_, hmem, hek, rfl⟩

theorem Whole.exists_keyed_slot_iff (hw : Whole h t) :
    (∃ i, t.Keyed (.slot i) k) ↔ ∃ w, Holds t.slotEntries k w := by
  constructor
  · intro ⟨i, hi⟩
    exact ⟨_, hw.holds_slotEntries.2 ⟨i, hi, rfl⟩⟩
  · intro ⟨w, hw'⟩
    obtain ⟨i, hi, -⟩ := hw.holds_slotEntries.1 hw'
    exact ⟨i, hi⟩

theorem Whole.findSlot_eq_none_iff (hw : Whole h t) (hk : k.isNil = false) :
    t.findSlot h k = none ↔ ¬∃ w, Holds t.slotEntries k w := by
  rw [← hw.exists_keyed_slot_iff, hw.valid.findSlot_eq_none_iff hk]
  simp [Keyed]

theorem Whole.visit_findSlot (hw : Whole h t) (hk : k.isNil = false) :
    (t.visit ((t.findSlot h k).map .slot)).1 = lookup t.slotEntries k := by
  ext w
  rw [lookup_eq_some_iff hw.valid.proper_slotEntries, hw.holds_slotEntries]
  simp only [Keyed, ← hw.valid.findSlot_eq_some_iff hk]
  cases hf : t.findSlot h k with
  | none => simp [visit]
  | some i =>
    have hused : t.Used i := findSlot_used hk hf
    have hlive : (t.slot i).value.isNil = false := by
      simpa [Slot.isLive] using hw.live i hused
    simp [visit, present?_eq_some_iff, read, hlive]

theorem Whole.getInt_eq (hw : Whole h t) (n : Int) : (t.getInt h n).1 =
    if 1 ≤ n ∧ n ≤ t.array.size then (t.array.getD (n.toNat - 1) .nil).present?
    else lookup t.slotEntries (.integer n) := by
  unfold getInt
  split_ifs
  · rfl
  · exact hw.visit_findSlot rfl

theorem Whole.getStr_eq (hw : Whole h t) (s : Str) :
    (t.getStr h s).1 = lookup t.slotEntries (.string s) := by
  -- both ways of comparing strings find the same slot
  have hvisit : (t.getStr h s).1 = (t.visit ((t.findSlot h (.string s)).map .slot)).1 := by
    unfold getStr findSlot
    split_ifs with hs
    · simp only [Value.equal_string hs]
    · rfl
  rw [hvisit]
  exact hw.visit_findSlot rfl

theorem Whole.hasInt_eq (hw : Whole h t) (n : Nat) :
    t.hasInt h n = ((t.getInt h n).1.isSome, t) :=
  Prod.ext rfl (hw.eq_of_touched (touched_hasInt n))

/-- Only where every slot holds an entry does a key find no place. -/
theorem Whole.insert?_eq_none_iff (hw : Whole h t) (k : Value) :
    t.insert? h k = none ↔ t.slotEntries.length = t.slots.size := by
  rw [hw.length_slotEntries]
  refine ⟨hw.valid.full_of_insert?_eq_none, fun hlen => ?_⟩
  have hfull : t.Full := fun i hi => hw.valid.used_of_full hlen hi
  rw [hfull.insert?_eq hw.valid.lastFree_le, Option.map_eq_none_iff, Option.filter_eq_none_iff]
  intro i hi
  have hpos : 0 < t.slots.size := by
    by_contra hzero
    rw [home?, if_pos (Array.isEmpty_iff_size_eq_zero.2 (by omega))] at hi
    cases hi
  rw [home?_eq_some hpos, Option.some.injEq] at hi
  have hlive := hw.live i (hfull i (hi ▸ Value.mainPosition_lt h hpos k))
  simp [hlive]

theorem Whole.write (hw : Whole h t) (hc : t.HasCell c) (hn : v.isNil = false) :
    Whole h (t.write c v) := hw.valid.whole_write hc hn fun j hj _ => hw.live j hj

theorem Whole.slotEntries_write (hw : Whole h t) (hc : t.Keyed (.slot i) k) (v : Value) :
    (t.write (.slot i) v).slotEntries = Ledger.store t.slotEntries k v := by
  have hready : t.Ready (.slot i) := fun hdead => by simp [hw.live i hc.1] at hdead
  have hself := (hw.valid.chained.isKey i hc.1).equal_self
  have hholds := hw.exists_keyed_slot_iff.1 ⟨i, hc.1, hself⟩
  rw [hw.valid.slotEntries_write_slot hc.1 hready, store_congr hc.2 hholds]

theorem Inserted.whole_write (hi : Inserted h t k i t') (hw : Whole h t) (hk : k.IsKey)
    (hn : v.isNil = false) : Whole h (t'.write (.slot i) v) := by
  apply hi.valid.whole_write (hi.keyed hk).hasCell hn
  intro j hj hne
  obtain ⟨x, hx, -, hvalue⟩ := hi.kept j (fun he => hne (he ▸ rfl)) hj
  rw [Slot.isLive, hvalue]
  exact hw.live x hx

end Table

end LuaData
