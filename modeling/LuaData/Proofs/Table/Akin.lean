import LuaData.Proofs.Table.Whole

/-!
# Where strings are hashed to

The hash of strings decides in which slots keys are, and nothing else. As long as no entry is
cleared, two tables over different hashes have the same array part, as many slots and the same
entries in the same order. A hash part grows only when every slot holds an entry, which does not
depend on where the entries are.
-/

namespace LuaData.Table

variable {h h' : SeededHash} {t t' : Table} {k v : Value}

/-- Tables over the hashes `h` and `h'` that differ at most in where the entries are. -/
structure Akin (h h' : StringHash) (t t' : Table) : Prop where
  left : Whole h t
  right : Whole h' t'
  array : t'.array = t.array
  slots_size : t'.slots.size = t.slots.size
  slotEntries : t'.slotEntries = t.slotEntries

namespace Akin

theorem empty (h h' : SeededHash) : Akin h h' empty empty :=
  ⟨whole_empty h, whole_empty h', rfl, rfl, rfl⟩

theorem displaced_eq (ha : Akin h h' t t') (size : Nat) : t'.displaced size = t.displaced size :=
  displaced_congr ha.array

theorem contents_eq (ha : Akin h h' t t') : t'.contents = t.contents := by
  rw [contents, contents, ha.displaced_eq, ha.slotEntries]

theorem count_eq (ha : Akin h h' t t') (fuzzy : Bool) : t'.count fuzzy = t.count fuzzy := by
  simp only [count, arrayCount, ha.array, ha.slotEntries]

theorem isEmpty_slots_eq (ha : Akin h h' t t') : t'.slots.isEmpty = t.slots.isEmpty := by
  rw [Bool.eq_iff_iff, Array.isEmpty_iff_size_eq_zero, Array.isEmpty_iff_size_eq_zero,
    ha.slots_size]

theorem arrayIndex?_eq (ha : Akin h h' t t') (k : Value) : t'.arrayIndex? k = t.arrayIndex? k := by
  simp only [arrayIndex?, ha.array]

theorem keyed_array_iff (ha : Akin h h' t t') {i : Nat} :
    t'.Keyed (.array i) k ↔ t.Keyed (.array i) k := by rw [Keyed, Keyed, ha.array]

theorem exists_keyed_slot_iff (ha : Akin h h' t t') :
    (∃ i, t'.Keyed (.slot i) k) ↔ ∃ i, t.Keyed (.slot i) k := by
  rw [ha.right.exists_keyed_slot_iff, ha.left.exists_keyed_slot_iff, ha.slotEntries]

/-- A key has a cell in both tables or in neither. -/
theorem cell?_cases (ha : Akin h h' t t') (k : Value) :
    (t.cell? h k = none ∧ t'.cell? h' k = none) ∨
      ∃ cell cell', t.cell? h k = some cell ∧ t'.cell? h' k = some cell' ∧ t.Keyed cell k ∧
        t'.Keyed cell' k := by
  cases hcell : t.cell? h k with
  | none =>
    have hno := ha.left.valid.cell?_eq_none_iff.1 hcell
    refine .inl ⟨rfl, ha.right.valid.cell?_eq_none_iff.2 fun cell' hcell' => ?_⟩
    cases cell' with
    | array i => exact hno _ (ha.keyed_array_iff.1 hcell')
    | slot i =>
      obtain ⟨j, hj⟩ := ha.exists_keyed_slot_iff.1 ⟨i, hcell'⟩
      exact hno _ hj
  | some cell =>
    have hkeyed := ha.left.valid.cell?_eq_some_iff.1 hcell
    obtain ⟨cell', hkeyed'⟩ : ∃ cell', t'.Keyed cell' k := by
      cases cell with
      | array i => exact ⟨_, ha.keyed_array_iff.2 hkeyed⟩
      | slot i =>
        obtain ⟨j, hj⟩ := ha.exists_keyed_slot_iff.2 ⟨i, hkeyed⟩
        exact ⟨_, hj⟩
    exact .inr ⟨cell, cell', rfl, ha.right.valid.cell?_eq_some_iff.2 hkeyed', hkeyed, hkeyed'⟩

/-- A value is stored under a key that has a cell in both tables. -/
theorem write (ha : Akin h h' t t') {cell cell' : Cell} (hc : t.Keyed cell k)
    (hc' : t'.Keyed cell' k) (hn : v.isNil = false) :
    Akin h h' (t.write cell v) (t'.write cell' v) := by
  have hw := ha.left.write hc.hasCell hn
  have hw' := ha.right.write hc'.hasCell hn
  have hsize : (t'.write cell' v).slots.size = (t.write cell v).slots.size := by
    rw [slots_size_write, slots_size_write, ha.slots_size]
  cases cell with
  | array i =>
    obtain rfl : cell' = .array i := hc'.eq ha.right.valid (ha.keyed_array_iff.2 hc)
    exact ⟨hw, hw', congrArg (fun a => a.setIfInBounds i v) ha.array, hsize, ha.slotEntries⟩
  | slot i =>
    cases cell' with
    | array j => cases hc.eq ha.left.valid (ha.keyed_array_iff.1 hc')
    | slot j =>
      refine ⟨hw, hw', ha.array, hsize, ?_⟩
      rw [ha.right.slotEntries_write hc', ha.left.slotEntries_write hc, ha.slotEntries]

/-- Either both tables have room for a new key or neither does. -/
theorem insert?_cases (ha : Akin h h' t t') (hk : k.IsKey) (hnew : t.cell? h k = none)
    (hnew' : t'.cell? h' k = none) :
    (t.insert? h k = none ∧ t'.insert? h' k = none) ∨
      ∃ i i' t₁ t₁', t.insert? h k = some (i, t₁) ∧ t'.insert? h' k = some (i', t₁') ∧
        ∀ v, v.isNil = false → Akin h h' (t₁.write (.slot i) v) (t₁'.write (.slot i') v) := by
  have hnone : t'.insert? h' k = none ↔ t.insert? h k = none := by
    rw [ha.right.insert?_eq_none_iff, ha.left.insert?_eq_none_iff, ha.slotEntries, ha.slots_size]
  cases hins : t.insert? h k with
  | none => exact .inl ⟨rfl, hnone.2 hins⟩
  | some p =>
    cases hins' : t'.insert? h' k with
    | none =>
      rw [hnone.1 hins'] at hins
      cases hins
    | some p' =>
      have hi := ha.left.valid.inserted hk hnew hins
      have hi' := ha.right.valid.inserted hk hnew' hins'
      refine .inr ⟨p.1, p'.1, p.2, p'.2, rfl, rfl, fun v hn =>
        ⟨hi.whole_write ha.left hk hn, hi'.whole_write ha.right hk hn, ?_, ?_, ?_⟩⟩
      · exact hi'.array.trans (ha.array.trans hi.array.symm)
      · rw [slots_size_write, slots_size_write, hi.size, hi'.size, ha.slots_size]
      · rw [hi'.slotEntries_write hk, hi.slotEntries_write hk, ha.slotEntries]

theorem get_eq (ha : Akin h h' t t') (k : Value) : (t'.get h' k).1 = (t.get h k).1 := by
  rw [ha.right.valid.get_eq_lookup, ha.left.valid.get_eq_lookup, ha.contents_eq]

theorem getInt_eq (ha : Akin h h' t t') (n : Int) : (t'.getInt h' n).1 = (t.getInt h n).1 := by
  rw [ha.right.getInt_eq, ha.left.getInt_eq, ha.array, ha.slotEntries]

theorem getStr_eq (ha : Akin h h' t t') (s : Str) : (t'.getStr h' s).1 = (t.getStr h s).1 := by
  rw [ha.right.getStr_eq, ha.left.getStr_eq, ha.slotEntries]

theorem hasInt_eq (ha : Akin h h' t t') (n : Nat) :
    t'.hasInt h' n = ((t.hasInt h n).1, t') := by
  rw [ha.right.hasInt_eq, ha.getInt_eq]
  rfl

theorem arrayBorder_eq (ha : Akin h h' t t') (fuel i j : Nat) :
    t'.arrayBorder fuel i j = t.arrayBorder fuel i j := by
  induction fuel generalizing i j with
  | zero => rfl
  | succ fuel ih => simp only [arrayBorder, ha.array, ih]

theorem borderBetween_eq (ha : Akin h h' t t') (fuel i j : Nat) :
    (t'.borderBetween h' fuel i j).1 = (t.borderBetween h fuel i j).1 := by
  induction fuel generalizing i j with
  | zero => rfl
  | succ fuel ih =>
    simp only [borderBetween, ha.hasInt_eq, ha.left.hasInt_eq]
    split_ifs
    · rfl
    · cases (t.getInt h ((i + j) / 2 : Nat)).1.isSome <;> exact ih ..

theorem lastPresentFrom_eq (ha : Akin h h' t t') (fuel i : Nat) :
    (t'.lastPresentFrom h' fuel i).1 = (t.lastPresentFrom h fuel i).1 := by
  induction fuel generalizing i with
  | zero => rfl
  | succ fuel ih =>
    rw [lastPresentFrom, lastPresentFrom, ha.hasInt_eq, ha.left.hasInt_eq]
    cases (t.getInt h i).1.isSome
    · rfl
    · exact ih _

theorem borderBeyond_eq (ha : Akin h h' t t') (fuel i j : Nat) :
    (t'.borderBeyond h' fuel i j).1 = (t.borderBeyond h fuel i j).1 := by
  induction fuel generalizing i j with
  | zero => rfl
  | succ fuel ih =>
    rw [borderBeyond, borderBeyond, ha.hasInt_eq, ha.left.hasInt_eq]
    cases (t.getInt h j).1.isSome
    · exact ha.borderBetween_eq ..
    · dsimp only
      rw [ha.array, ha.slots_size]
      split_ifs
      · exact ha.lastPresentFrom_eq ..
      · exact ih ..

theorem length_eq (ha : Akin h h' t t') : (t'.length h').1 = (t.length h).1 := by
  rw [length, length, ha.array, ha.arrayBorder_eq, ha.isEmpty_slots_eq]
  split_ifs
  · rfl
  · rfl
  · exact ha.borderBeyond_eq ..

/-- A traversal goes on in the same way after a key in a slot. -/
theorem next_of_keyed_slot (ha : Akin h h' t t') {i : Nat} (hc : t.Keyed (.slot i) k) :
    t'.next h' k = t.next h k := by
  obtain ⟨w, e, he, hek, -⟩ := ha.left.exists_keyed_slot_iff.1 ⟨i, hc⟩
  obtain ⟨as, es, hs⟩ := List.append_of_mem (List.mem_append_right (t.displaced 0) he)
  have hahead := ha.left.valid.ahead_of_contents hs hek
  have hahead' := ha.right.valid.ahead_of_contents (ha.contents_eq.trans hs) hek
  rw [ha.left.valid.next_of_ahead hahead, ha.right.valid.next_of_ahead hahead']

theorem next_of_array (ha : Akin h h' t t') {i : Nat} (hr : t.resume h k = .ok (.array i))
    (hr' : t'.resume h' k = .ok (.array i)) : t'.next h' k = t.next h k := by
  rw [ha.left.valid.next_eq hr rfl, ha.right.valid.next_eq hr' rfl, ha.displaced_eq, ha.slotEntries]

theorem next_eq (ha : Akin h h' t t') (k : Value) : t'.next h' k = t.next h k := by
  by_cases hnil : k.isNil = true
  · exact ha.next_of_array (if_pos hnil) (if_pos hnil)
  rw [Bool.not_eq_true] at hnil
  cases hindex : t.arrayIndex? k with
  | some i =>
    apply ha.next_of_array (i := i + 1)
    · rw [resume, hnil, hindex]
      rfl
    · rw [resume, hnil, ha.arrayIndex?_eq, hindex]
      rfl
  | none =>
    cases hf : t.findSlot h k with
    | some i =>
      exact ha.next_of_keyed_slot ((ha.left.valid.findSlot_eq_some_iff hnil).1 hf)
    | none =>
      -- neither table has a slot for the key
      have hf' : t'.findSlot h' k = none := by
        rwa [ha.right.findSlot_eq_none_iff hnil, ha.slotEntries,
          ← ha.left.findSlot_eq_none_iff hnil]
      rw [next, next, resume, resume, hnil, ha.arrayIndex?_eq, hindex, hf, hf']
      rfl

theorem reinsert (ha : Akin h h' t t') {e : Value × Value} (hk : e.1.IsKey)
    (hn : e.2.isNil = false) : Akin h h' (t.reinsert h e) (t'.reinsert h' e) := by
  unfold Table.reinsert
  rcases ha.cell?_cases e.1 with ⟨hnew, hnew'⟩ | ⟨cell, cell', hc, hc', hkeyed, hkeyed'⟩
  · rw [hnew, hnew']
    rcases ha.insert?_cases hk hnew hnew' with ⟨hins, hins'⟩ | ⟨i, i', t₁, t₁', hins, hins', hw⟩
    · rw [hins, hins']
      exact ha
    · rw [hins, hins']
      exact hw e.2 hn
  · rw [hc, hc']
    exact ha.write hkeyed hkeyed' hn

theorem foldl_reinsert (ha : Akin h h' t t') {es : List (Value × Value)}
    (hes : ∀ e ∈ es, e.1.IsKey ∧ e.2.isNil = false) :
    Akin h h' (es.foldl (Table.reinsert h) t) (es.foldl (Table.reinsert h') t') := by
  induction es generalizing t t' with
  | nil => exact ha
  | cons e es ih =>
    obtain ⟨hk, hn⟩ := hes e List.mem_cons_self
    exact ih (ha.reinsert hk hn) fun e' he => hes e' (List.mem_cons_of_mem e he)

theorem bare (ha : Akin h h' t t') {a n : Nat} (hle : a ≤ maxArraySize)
    (hn : n = 0 ∨ ∃ m, n = 2 ^ m) : Akin h h' (t.bare a n) (t'.bare a n) where
  left := ⟨.bare hle hn, fun i hi => absurd hi (not_used_bare t a n i)⟩
  right := ⟨.bare hle hn, fun i hi => absurd hi (not_used_bare t' a n i)⟩
  array := by rw [Table.bare, Table.bare, ha.array]
  slots_size := rfl
  slotEntries := by
    rw [Table.slotEntries, Table.slotEntries, toList_bare, toList_bare]
    rfl

theorem entriesToMove_eq (ha : Akin h h' t t') (a : Nat) :
    t'.entriesToMove a = t.entriesToMove a := by
  rw [entriesToMove, entriesToMove, ha.displaced_eq, ha.slotEntries]

theorem overflowCount_eq (ha : Akin h h' t t') (a : Nat) :
    t'.overflowCount a = t.overflowCount a := by
  rw [overflowCount, overflowCount, ha.displaced_eq, ha.slotEntries]

theorem requestParts_eq (ha : Akin h h' t t') (c : Collector) (a n : Nat) :
    t'.requestParts c a n = t.requestParts c a n := by
  rw [requestParts, requestParts, ha.array]

/-- Keys are counted alike wherever they are. -/
theorem census_eq (ha : Akin h h' t t') (k : Value) : t'.census k = t.census k := by
  rw [ha.right.valid.census_eq, ha.left.valid.census_eq, ha.contents_eq]

theorem rebuild (ha : Akin h h' t t') {a n : Nat} (hle : a ≤ maxArraySize)
    (hn : n = 0 ∨ ∃ m, n = 2 ^ m) : Akin h h' (t.rebuild h a n) (t'.rebuild h' a n) := by
  have hproper := ha.left.valid.proper_contents
  rw [contents_eq_bare t a n] at hproper
  rw [Table.rebuild, Table.rebuild, ha.entriesToMove_eq]
  apply (ha.bare hle hn).foldl_reinsert
  intro e he
  have hmem := List.mem_append_right (t.bare a n).contents he
  exact ⟨hproper.isKey e hmem, hproper.present e hmem⟩

/-- Tables that have looked for free slots in vain. -/
theorem exhausted (ha : Akin h h' t t') (hins : t.insert? h k = none)
    (hins' : t'.insert? h' k = none) :
    Akin h h' { t with lastFree := 0 } { t' with lastFree := 0 } where
  left := ⟨ha.left.valid.exhausted (ha.left.valid.full_of_insert?_eq_none hins), ha.left.live⟩
  right := ⟨ha.right.valid.exhausted (ha.right.valid.full_of_insert?_eq_none hins'), ha.right.live⟩
  array := ha.array
  slots_size := ha.slots_size
  slotEntries := ha.slotEntries

end Akin

structure Agree {α : Type} (h h' : StringHash) (o o' : Outcome α) : Prop where
  result : o'.result = o.result
  collector : o'.collector = o.collector
  table : Akin h h' o.table o'.table

theorem Agree.eq {α : Type} {o o' : Outcome α} (hag : Agree h h' o o') :
    ∃ t', o' = ⟨o.result, t', o.collector⟩ ∧ Akin h h' o.table t' :=
  ⟨o'.table, Outcome.eq_mk hag.result hag.collector, hag.table⟩

theorem Agree.map {α β : Type} {o o' : Outcome α} (hag : Agree h h' o o') (f : α → β) :
    Agree h h' (o.map f) (o'.map f) := by
  obtain ⟨t', rfl, ht⟩ := hag.eq
  exact ⟨rfl, rfl, ht⟩

namespace Akin

theorem resize (ha : Akin h h' t t') (c : Collector) (a n : Nat) :
    Agree h h' (t.resize h c a n) (t'.resize h' c a n) := by
  have hrebuild := ha.rebuild (Nat.min_le_right a maxArraySize)
    (capacity_eq (max n (t.overflowCount (min a maxArraySize))))
  unfold Table.resize
  simp only [ha.overflowCount_eq, ha.requestParts_eq, ha.entriesToMove_eq,
    ha.isEmpty_slots_eq, ha.slots_size]
  split
  · exact ⟨rfl, rfl, ha⟩
  · split
    · exact ⟨rfl, rfl, ha⟩
    · exact ⟨rfl, rfl, hrebuild⟩

theorem rehash (ha : Akin h h' t t') (c : Collector) (k : Value) :
    Agree h h' (t.rehash h c k) (t'.rehash h' c k) := by
  unfold Table.rehash
  rw [ha.census_eq, ha.array, ha.slots_size]
  exact ha.resize _ _ _

end Akin

end LuaData.Table
