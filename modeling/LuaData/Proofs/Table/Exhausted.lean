import LuaData.Proofs.Table.Run

namespace LuaData.Table

variable {h : SeededHash} {t t' : Table}

def mark (t : Table) (n : Nat) : Table := { t with lastFree := n }

def Full (t : Table) : Prop := ∀ i < t.slots.size, t.Used i

section Mark

variable (h : StringHash) (t : Table) (n : Nat)

@[simp] theorem array_mark : (t.mark n).array = t.array := rfl

@[simp] theorem slots_mark : (t.mark n).slots = t.slots := rfl

@[simp] theorem order_mark : (t.mark n).order = t.order := rfl

@[simp] theorem slot_mark (i : Nat) : (t.mark n).slot i = t.slot i := rfl

@[simp] theorem write_mark (c : Cell) (v : Value) :
    (t.mark n).write c v = (t.write c v).mark n := by
  cases c <;> rfl

@[simp] theorem touch_mark (c : Cell) : (t.mark n).touch c = (t.touch c).mark n := by
  cases c with
  | array i => rfl
  | slot i =>
    rw [touch, touch, slot_mark]
    split_ifs <;> rfl

theorem follow_mark (p : Slot → Bool) (fuel i : Nat) :
    (t.mark n).follow p fuel i = t.follow p fuel i := by
  induction fuel generalizing i with
  | zero => rfl
  | succ fuel ih => simp only [follow, slot_mark, ih]

@[simp] theorem search_mark (k : Value) (p : Slot → Bool) :
    (t.mark n).search h k p = t.search h k p := by
  simp only [search, slots_mark, funext (follow_mark t n p _)]
  rfl

@[simp] theorem findSlot_mark (k : Value) : (t.mark n).findSlot h k = t.findSlot h k :=
  search_mark ..

@[simp] theorem arrayIndex?_mark (k : Value) : (t.mark n).arrayIndex? k = t.arrayIndex? k := rfl

@[simp] theorem cell?_mark (k : Value) : (t.mark n).cell? h k = t.cell? h k := by
  rw [cell?, cell?, arrayIndex?_mark, findSlot_mark]

theorem visit_mark (c? : Option Cell) :
    (t.mark n).visit c? = ((t.visit c?).1, (t.visit c?).2.mark n) := by
  cases c? with
  | none => rfl
  | some c =>
    simp only [visit, touch_mark]
    cases c <;> rfl

theorem get_mark (k : Value) : (t.mark n).get h k = ((t.get h k).1, (t.get h k).2.mark n) := by
  rw [get, cell?_mark, visit_mark]
  rfl

theorem getInt_mark (i : Int) :
    (t.mark n).getInt h i = ((t.getInt h i).1, (t.getInt h i).2.mark n) := by
  simp only [getInt, array_mark, findSlot_mark, visit_mark]
  split_ifs <;> rfl

theorem getStr_mark (s : Str) :
    (t.mark n).getStr h s = ((t.getStr h s).1, (t.getStr h s).2.mark n) := by
  simp only [getStr, search_mark, visit_mark, get_mark]
  split_ifs <;> rfl

theorem hasInt_mark (i : Nat) :
    (t.mark n).hasInt h i = ((t.hasInt h i).1, (t.hasInt h i).2.mark n) := by
  rw [hasInt, getInt_mark]
  rfl

theorem borderBetween_mark (fuel i j : Nat) : (t.mark n).borderBetween h fuel i j =
    ((t.borderBetween h fuel i j).1, (t.borderBetween h fuel i j).2.mark n) := by
  induction fuel generalizing t i j with
  | zero => rfl
  | succ fuel ih =>
    simp only [borderBetween, hasInt_mark]
    split_ifs
    · rfl
    · rcases t.hasInt h ((i + j) / 2) with ⟨found, t'⟩
      cases found <;> exact ih ..

theorem lastPresentFrom_mark (fuel i : Nat) : (t.mark n).lastPresentFrom h fuel i =
    ((t.lastPresentFrom h fuel i).1, (t.lastPresentFrom h fuel i).2.mark n) := by
  induction fuel generalizing t i with
  | zero => rfl
  | succ fuel ih =>
    simp only [lastPresentFrom, hasInt_mark]
    rcases t.hasInt h i with ⟨found, t'⟩
    cases found
    · rfl
    · exact ih ..

theorem borderBeyond_mark (fuel i j : Nat) : (t.mark n).borderBeyond h fuel i j =
    ((t.borderBeyond h fuel i j).1, (t.borderBeyond h fuel i j).2.mark n) := by
  induction fuel generalizing t i j with
  | zero => rfl
  | succ fuel ih =>
    simp only [borderBeyond, hasInt_mark]
    rcases t.hasInt h j with ⟨found, t'⟩
    cases found
    · exact borderBetween_mark ..
    · dsimp only
      split_ifs
      · exact lastPresentFrom_mark ..
      · exact ih ..

theorem arrayBorder_mark (fuel i j : Nat) :
    (t.mark n).arrayBorder fuel i j = t.arrayBorder fuel i j := by
  induction fuel generalizing i j with
  | zero => rfl
  | succ fuel ih => simp only [arrayBorder, array_mark, ih]

theorem length_mark : (t.mark n).length h = ((t.length h).1, (t.length h).2.mark n) := by
  simp only [length, array_mark, slots_mark, arrayBorder_mark, borderBeyond_mark]
  split_ifs <;> rfl

theorem arrayEntryAmong_mark (m i : Nat) :
    (t.mark n).arrayEntryAmong m i = t.arrayEntryAmong m i := by
  rw [arrayEntryAmong_eq, arrayEntryAmong_eq]
  rfl

theorem slotEntryFrom_mark (fuel : Nat) (i? : Option Nat) :
    (t.mark n).slotEntryFrom fuel i? = t.slotEntryFrom fuel i? := by
  rw [slotEntryFrom_eq, slotEntryFrom_eq]
  rfl

theorem next_mark (k : Value) : (t.mark n).next h k = t.next h k := by
  have hresume : (t.mark n).resume h k = t.resume h k := by
    rw [resume, resume, arrayIndex?_mark, findSlot_mark]
    rfl
  have harray : (t.mark n).arrayEntryFrom = t.arrayEntryFrom :=
    funext fun i => arrayEntryAmong_mark ..
  have hslot : (t.mark n).slotEntryFrom = t.slotEntryFrom :=
    funext fun fuel => funext fun i? => slotEntryFrom_mark ..
  rw [next, next, hresume, harray, hslot]
  rfl

theorem entriesToMove_mark (a : Nat) : (t.mark n).entriesToMove a = t.entriesToMove a := by
  rw [entriesToMove, entriesToMove, displaced_congr (array_mark t n)]
  rfl

theorem overflowCount_mark (a : Nat) : (t.mark n).overflowCount a = t.overflowCount a := by
  rw [overflowCount, overflowCount, displaced_congr (array_mark t n)]
  rfl

end Mark

/-- `t'` is `t`, unless both have no free slot; then the marks may differ. -/
def Twin (t t' : Table) : Prop :=
  t' = t ∨ t.Full ∧ t.lastFree ≤ t.slots.size ∧ ∃ n ≤ t.slots.size, t' = t.mark n

/-- The same answer, and tables that nobody can tell apart. -/
structure Paired {α : Type} (o o' : Outcome α) : Prop where
  result : o'.result = o.result
  collector : o'.collector = o.collector
  table : Twin o.table o'.table

theorem Twin.refl (t : Table) : Twin t t := .inl rfl

theorem Paired.refl {α : Type} (o : Outcome α) : Paired o o := ⟨rfl, rfl, .refl _⟩

theorem Paired.eq {α : Type} {o o' : Outcome α} (hp : Paired o o') :
    ∃ t', o' = ⟨o.result, t', o.collector⟩ ∧ Twin o.table t' :=
  ⟨o'.table, Outcome.eq_mk hp.result hp.collector, hp.table⟩

/-- Twins differ at most in their marks. -/
theorem Twin.eq_mark (ht : Twin t t') : ∃ n, t' = t.mark n := by
  rcases ht with rfl | ⟨-, -, n, -, rfl⟩
  · exact ⟨t'.lastFree, rfl⟩
  · exact ⟨n, rfl⟩

theorem Twin.write (ht : Twin t t') (c : Cell) (v : Value) : Twin (t.write c v) (t'.write c v) := by
  rcases ht with rfl | ⟨hfull, hle, n, hn, rfl⟩
  · exact .refl _
  · refine .inr ⟨fun i hi => ?_, ?_, n, ?_, write_mark ..⟩
    · rw [slots_size_write] at hi
      exact (used_write ..).2 (hfull i hi)
    · rwa [lastFree_write, slots_size_write]
    · rwa [slots_size_write]

theorem Full.congr (hfull : t.Full) (hs : t'.slots = t.slots) : t'.Full := by
  intro i hi
  have hused := hfull i (hs ▸ hi)
  rwa [Used, slot, hs]

theorem Twin.touch (ht : Twin t t') (c : Cell) : Twin (t.touch c) (t'.touch c) := by
  rcases ht with rfl | ⟨hfull, hle, n, hn, rfl⟩
  · exact .refl _
  · refine .inr ⟨hfull.congr (slots_touch t c), ?_, n, ?_, touch_mark ..⟩
    · rwa [slots_touch, lastFree_touch]
    · rwa [slots_touch]

theorem Twin.sizes_eq (ht : Twin t t') :
    t'.array.size = t.array.size ∧ t'.slots.size = t.slots.size := by
  obtain ⟨n, rfl⟩ := ht.eq_mark
  exact ⟨rfl, rfl⟩

theorem Twin.cell?_eq (ht : Twin t t') (k : Value) : t'.cell? h k = t.cell? h k := by
  obtain ⟨n, rfl⟩ := ht.eq_mark
  exact cell?_mark ..

theorem Full.freeBelow_eq_none (hfull : t.Full) {n : Nat} (hn : n ≤ t.slots.size) :
    t.freeBelow n = none :=
  freeBelow_eq_none_iff.2 fun i hi => hfull i (hi.trans_le hn)

theorem Full.occupy (hfull : t.Full) {k : Value} (hk : k.isNil = false) (i : Nat) :
    (t.occupy i k).Full := by
  intro j hj
  rw [size_occupy] at hj
  by_cases hji : j = i
  · rw [used_iff_isNil, slot_occupy (hji ▸ hj), if_pos hji]
    exact hk
  · have hslot : (t.occupy i k).slot j = t.slot j := by
      change (t.setSlot i _).slot j = _
      rw [slot_setSlot, if_neg fun hn => hji hn.1.symm]
    rw [Used, hslot]
    exact hfull j hj

/-- Without a free slot a key can only take the place of a cleared entry. -/
theorem Full.insert?_eq (hfull : t.Full) (hle : t.lastFree ≤ t.slots.size) (k : Value) :
    t.insert? h k = ((t.home? h k).filter fun i => !(t.slot i).isLive).map
      fun i => (i, t.occupy i k) := by
  rw [insert?, place?]
  cases t.home? h k with
  | none => rfl
  | some i =>
    dsimp only
    rw [Option.filter_some]
    cases (t.slot i).isLive with
    | true =>
      -- a present entry at the main position would need a free slot
      rw [if_pos rfl, hfull.freeBelow_eq_none hle]
      rfl
    | false => rfl

theorem Full.insert?_mark (hfull : t.Full) (hle : t.lastFree ≤ t.slots.size) {n : Nat}
    (hn : n ≤ t.slots.size) (k : Value) :
    (t.mark n).insert? h k = (t.insert? h k).map fun p => (p.1, p.2.mark n) := by
  have hmark : (t.mark n).Full := hfull
  rw [hmark.insert?_eq hn, hfull.insert?_eq hle, Option.map_map]
  rfl

theorem Full.twin_insert? (hfull : t.Full) (hle : t.lastFree ≤ t.slots.size) {n : Nat}
    (hn : n ≤ t.slots.size) {k : Value} (hk : k.isNil = false) {i : Nat}
    (hins : t.insert? h k = some (i, t')) : Twin t' (t'.mark n) := by
  rw [hfull.insert?_eq hle] at hins
  obtain ⟨j, -, hj⟩ := Option.map_eq_some_iff.1 hins
  cases hj
  refine .inr ⟨hfull.occupy hk i, ?_, n, ?_, rfl⟩
  · rwa [size_occupy]
  · rwa [size_occupy]

section Stores

variable {k v : Value}

theorem Twin.create (ht : Twin t t') (hk : k.isNil = false) (c : Collector) :
    Paired (t.create h c k) (t'.create h c k) := by
  rcases ht with rfl | ⟨hfull, hle, n, hn, rfl⟩
  · exact .refl _
  rw [Table.create, Table.create, hfull.insert?_mark hle hn]
  cases hins : t.insert? h k with
  | some p => exact ⟨rfl, rfl, hfull.twin_insert? hle hn hk hins⟩
  | none => exact .refl _

theorem Twin.cellFor (ht : Twin t t') (c : Collector) (k : Value) :
    Paired (t.cellFor h c k) (t'.cellFor h c k) := by
  rw [Table.cellFor, Table.cellFor]
  cases hk : keyError? k with
  | some e => exact ⟨rfl, rfl, ht⟩
  | none =>
    dsimp only
    rw [ht.cell?_eq]
    cases t.cell? h k with
    | some cell => exact ⟨rfl, rfl, ht.touch cell⟩
    | none => exact ht.create (Value.keyError?_eq_none_iff.1 hk).1 c

theorem Twin.set (ht : Twin t t') (c : Collector) (k v : Value) :
    Paired (t.set h c k v) (t'.set h c k v) := by
  rw [Table.set, Table.set, ht.cell?_eq]
  split_ifs
  · exact ⟨rfl, rfl, ht⟩
  · have hp := ht.cellFor (h := h) c k
    generalize t.cellFor h c k = o at hp
    generalize t'.cellFor h c k = o' at hp
    obtain ⟨r, t₁, c₁⟩ := o
    obtain ⟨t₁', rfl, ht₁⟩ := hp.eq
    cases r with
    | error e => exact ⟨rfl, rfl, ht₁⟩
    | ok cell => exact ⟨rfl, rfl, ht₁.write cell v⟩

theorem Twin.resize (ht : Twin t t') (c : Collector) (a m : Nat) :
    Paired (t.resize h c a m) (t'.resize h c a m) := by
  rcases ht with rfl | ⟨hfull, hle, n, hn, rfl⟩
  · exact .refl _
  have hmark : Twin t (t.mark n) := .inr ⟨hfull, hle, n, hn, rfl⟩
  have hrebuild : ∀ a m, (t.mark n).rebuild h a m = t.rebuild h a m := by
    intro a m
    rw [rebuild, rebuild, entriesToMove_mark]
    rfl
  have hparts : (t.mark n).requestParts = t.requestParts := rfl
  simp only [Table.resize, overflowCount_mark, entriesToMove_mark, hrebuild, hparts, slots_mark]
  split
  · exact ⟨rfl, rfl, hmark⟩
  · split
    · exact ⟨rfl, rfl, hmark⟩
    -- the fresh parts have a mark of their own
    · exact .refl _

theorem Twin.writeRun (ht : Twin t t') (c : Collector) (i : Nat) (vs : List Value) :
    Twin (t.writeRun c i vs).1 (t'.writeRun c i vs).1 ∧
      (t'.writeRun c i vs).2 = (t.writeRun c i vs).2 := by
  induction vs generalizing t t' c i with
  | nil => exact ⟨ht, rfl⟩
  | cons v vs ih => exact ih (ht.write (.array i) v) _ _

theorem Twin.setRun (ht : Twin t t') (c : Collector) (n : Nat) (vs : List Value) :
    Paired (t.setRun h c n vs) (t'.setRun h c n vs) := by
  induction vs generalizing t t' c n with
  | nil => exact ⟨rfl, rfl, ht⟩
  | cons v vs ih =>
    have hp := ht.set (h := h) c (.integer n) v
    rw [Table.setRun, Table.setRun, setInt, setInt]
    generalize t.set h c (.integer n) v = o at hp
    generalize t'.set h c (.integer n) v = o' at hp
    obtain ⟨r, t₁, c₁⟩ := o
    obtain ⟨t₁', rfl, ht₁⟩ := hp.eq
    cases r with
    | error e => exact ⟨rfl, rfl, ht₁⟩
    | ok x => exact ih ht₁ _ _

theorem Twin.storeRun (ht : Twin t t') (c : Collector) (n : Nat) (vs : List Value) :
    Paired (t.storeRun h c n vs) (t'.storeRun h c n vs) := by
  rw [Table.storeRun, Table.storeRun, ht.sizes_eq.1]
  generalize t.array.size + 1 - n = inside
  obtain ⟨ht₁, hc⟩ := ht.writeRun c (n - 1) (vs.take inside)
  generalize t.writeRun c (n - 1) (vs.take inside) = p at ht₁ hc
  generalize t'.writeRun c (n - 1) (vs.take inside) = p' at ht₁ hc
  dsimp only
  rw [hc]
  exact ht₁.setRun _ _ _

theorem Full.freeCount_eq_zero (hfull : t.Full) {n : Nat} (hn : n ≤ t.slots.size) (limit : Nat) :
    t.freeCount limit n = 0 := by
  rw [freeCount_eq, Nat.min_eq_zero_iff, List.countP_eq_zero]
  refine .inr fun i hi => ?_
  have hused : t.Used i := hfull i ((List.mem_range.1 hi).trans_le hn)
  rw [show (t.slot i).isFree = false from hused]
  exact Bool.false_ne_true

/-- No free slots are counted, whether they are looked for or not. -/
theorem Full.bulkHashSize_eq (hfull : t.Full) (hle : t.lastFree ≤ t.slots.size) (extra : Nat) :
    t.bulkHashSize extra = t.slots.size + extra := by
  rw [bulkHashSize, hfull.freeCount_eq_zero hle]
  split_ifs <;> omega

theorem Twin.bulkHashSize_eq (ht : Twin t t') (extra : Nat) :
    t'.bulkHashSize extra = t.bulkHashSize extra := by
  rcases ht with rfl | ⟨hfull, hle, n, hn, rfl⟩
  · rfl
  · have hmark : (t.mark n).Full := hfull
    rw [hmark.bulkHashSize_eq hn, hfull.bulkHashSize_eq hle, slots_mark]

theorem Twin.grown (ht : Twin t t') (c : Collector) (a n : Nat) :
    Paired (t.grown h c a n) (t'.grown h c a n) := by
  rw [Table.grown, Table.grown, ht.sizes_eq.1, ht.sizes_eq.2]
  split_ifs
  · exact ht.resize c a n
  · exact ⟨rfl, rfl, ht⟩

theorem Twin.setList (ht : Twin t t') (c : Collector) (first : Int) (vs : List Value) :
    Paired (t.setList h c first vs) (t'.setList h c first vs) := by
  have harray : ∀ first last, t'.bulkArraySize first last = t.bulkArraySize first last := by
    intro first last
    rw [bulkArraySize, bulkArraySize, ht.sizes_eq.1]
  unfold Table.setList
  split_ifs
  · exact ⟨rfl, rfl, ht⟩
  · exact ⟨rfl, rfl, ht⟩
  · exact ⟨rfl, rfl, ht⟩
  -- the same parts are asked for, so either both tables grow or neither does
  simp only [harray, ht.bulkHashSize_eq]
  generalize t.bulkArraySize _ _ = a
  generalize t.bulkHashSize _ = n
  have hp := ht.grown (h := h) c a n
  unfold Table.grown at hp
  generalize (if t.array.size < a ∨ t.slots.size < n then t.resize h c a n
    else ⟨.ok (), t, c⟩) = o at hp ⊢
  generalize (if t'.array.size < a ∨ t'.slots.size < n then t'.resize h c a n
    else ⟨.ok (), t', c⟩) = o' at hp ⊢
  obtain ⟨r, t₁, c₁⟩ := o
  obtain ⟨t₁', rfl, ht₁⟩ := hp.eq
  cases r with
  | error e => exact ⟨rfl, rfl, ht₁⟩
  | ok x => exact ht₁.storeRun _ _ _

end Stores

theorem Paired.map {α β : Type} {o o' : Outcome α} (hp : Paired o o') (f : α → β) :
    Paired (o.map f) (o'.map f) := by
  obtain ⟨t', rfl, ht⟩ := hp.eq
  exact ⟨rfl, rfl, ht⟩

theorem Touched.array_eq (ht : Touched t t') : t'.array = t.array := by
  induction ht with
  | refl => rfl
  | touch c _ _ ih => exact (array_touch ..).trans ih

theorem Touched.slots_eq (ht : Touched t t') : t'.slots = t.slots ∧ t'.lastFree = t.lastFree := by
  induction ht with
  | refl => exact ⟨rfl, rfl⟩
  | touch c _ _ ih =>
    exact ⟨(slots_touch ..).trans ih.1, (lastFree_touch ..).trans ih.2⟩

/-- A look-up answers without regard to the mark. -/
theorem Twin.look {α : Type} (ht : Twin t t') (f : Table → α × Table) (g : α → Reply)
    (c : Collector) (hf : ∀ t n, f (t.mark n) = ((f t).1, (f t).2.mark n))
    (htouched : Touched t (f t).2) :
    Paired ⟨.ok (g (f t).1), (f t).2, c⟩ ⟨.ok (g (f t').1), (f t').2, c⟩ := by
  rcases ht with rfl | ⟨hfull, hle, n, hn, rfl⟩
  · exact .refl _
  · rw [hf]
    obtain ⟨hs, hl⟩ := htouched.slots_eq
    refine ⟨rfl, rfl, .inr ⟨hfull.congr hs, ?_, n, ?_, rfl⟩⟩
    · rwa [hs, hl]
    · rwa [hs]

theorem Twin.setCell (ht : Twin t t') (c : Collector) (k v : Value) :
    Paired ((Operation.setCell k v).apply h t c) ((Operation.setCell k v).apply h t' c) := by
  have hp := ht.cellFor (h := h) c k
  rw [Operation.apply, Operation.apply]
  generalize t.cellFor h c k = o at hp
  generalize t'.cellFor h c k = o' at hp
  obtain ⟨r, t₁, c₁⟩ := o
  obtain ⟨t₁', rfl, ht₁⟩ := hp.eq
  cases r with
  | error e => exact ⟨rfl, rfl, ht₁⟩
  | ok cell => exact ⟨rfl, rfl, ht₁.write cell v⟩

theorem Twin.next_eq (ht : Twin t t') (k : Value) : t'.next h k = t.next h k := by
  obtain ⟨n, rfl⟩ := ht.eq_mark
  exact next_mark ..

theorem Twin.count_eq (ht : Twin t t') (fuzzy : Bool) : t'.count fuzzy = t.count fuzzy := by
  obtain ⟨n, rfl⟩ := ht.eq_mark
  rfl

theorem Twin.apply (ht : Twin t t') (c : Collector) (op : Operation) :
    Paired (op.apply h t c) (op.apply h t' c) := by
  cases op with
  | set k v => exact (ht.set c k v).map _
  | setInt n v => exact (ht.set c _ v).map _
  | setCell k v => exact ht.setCell c k v
  | setList first values => exact (ht.setList c first values).map _
  | resize a n => exact (ht.resize c a n).map _
  | resizeArray a =>
    have hp := ht.resize (h := h) c a t.slots.size
    rw [Operation.apply, Operation.apply, resizeArray, resizeArray, ht.sizes_eq.2]
    exact hp.map _
  | get k => exact ht.look (fun t => t.get h k) .value c (get_mark h · · k) (touched_get k)
  | getInt n =>
    exact ht.look (fun t => t.getInt h n) .value c (getInt_mark h · · n) (touched_getInt n)
  | getStr s =>
    exact ht.look (fun t => t.getStr h s) .value c (getStr_mark h · · s) (touched_getStr s)
  | next k =>
    refine ⟨?_, rfl, ht⟩
    rw [Operation.apply, Operation.apply, ht.next_eq]
  | length => exact ht.look (fun t => t.length h) .number c (length_mark h) touched_length
  | count fuzzy =>
    refine ⟨?_, rfl, ht⟩
    rw [Operation.apply, Operation.apply, ht.count_eq]

def answers (h : StringHash) (t : Table) :
    List (Operation × Collector) → List (Except TableError Reply × Collector)
  | [] => []
  | (op, c) :: ops =>
    let o := op.apply h t c
    (o.result, o.collector) :: o.table.answers h ops

/-- Twins cannot be told apart, whatever is done to them. -/
theorem Twin.answers_eq (ht : Twin t t') (ops : List (Operation × Collector)) :
    t'.answers h ops = t.answers h ops := by
  induction ops generalizing t t' with
  | nil => rfl
  | cons op ops ih =>
    have hp := ht.apply (h := h) op.2 op.1
    rw [answers, answers, ih hp.table, hp.result, hp.collector]

end LuaData.Table
