import LuaData.Proofs.Table.Census

namespace LuaData.Ledger

/-- Stores under new keys are kept in their order. -/
theorem storeAll_eq_append {m es : Ledger} (h : Proper (m ++ es)) : m.storeAll es = m ++ es := by
  induction es generalizing m with
  | nil => rw [List.append_nil]; rfl
  | cons e es ih =>
    have happ : m ++ e :: es = (m ++ [e]) ++ es := by simp
    have hd := List.pairwise_append.1 h.distinct
    have hne : ∀ a ∈ m, a.1.equal e.1 = false := fun a ha => hd.2.2 a ha e List.mem_cons_self
    have hstore : m.store e.1 e.2 = m ++ [e] := by
      rw [store_end hne, h.present e (by simp)]
      rfl
    rw [happ] at h ⊢
    rw [← ih h, storeAll, List.foldl_cons, hstore]
    rfl

end LuaData.Ledger

namespace LuaData.Table

open Ledger

variable {h : SeededHash} {t t' : Table} {c : Collector}

theorem isLive_write (t : Table) (i j : Nat) (v : Value) :
    ((t.write (.slot i) v).slot j).isLive =
      if i = j ∧ j < t.slots.size then !v.isNil else (t.slot j).isLive := by
  rw [slot_write_slot]
  split_ifs <;> rfl

/-- A valid table in which every used slot holds a present entry. -/
structure Whole (h : StringHash) (t : Table) : Prop where
  valid : Valid h t
  live : ∀ i, t.Used i → (t.slot i).isLive = true

/-- A store of a value brings to life the only slot that may be cleared. -/
theorem Valid.whole_write (hv : Valid h t) {cell : Cell} (hc : t.HasCell cell) {v : Value}
    (hn : v.isNil = false)
    (hlive : ∀ j, t.Used j → cell ≠ .slot j → (t.slot j).isLive = true) :
    Whole h (t.write cell v) where
  valid := hv.write hc v
  live j hj := by
    rw [used_write] at hj
    cases cell with
    | array i => exact hlive j hj nofun
    | slot i =>
      rw [isLive_write, hn]
      by_cases hij : i = j
      · rw [if_pos ⟨hij, hj.lt_size⟩]
        rfl
      · rw [if_neg fun he => hij he.1]
        exact hlive j hj fun he => hij (Cell.slot.inj he)

structure Restored (h : StringHash) (t : Table) (es : List (Value × Value)) (t' : Table) :
    Prop where
  valid : Valid h t'
  live : ∀ i, t'.Used i → (t'.slot i).isLive = true
  matches_storeAll : Matches t'.contents (t.contents.storeAll es)
  array_size : t'.array.size = t.array.size
  slots_size : t'.slots.size = t.slots.size
  used_le : t'.order.toList.length ≤
    t.order.toList.length + es.countP fun e => !inArray t.array.size e.1

/-- A store of a present entry through its cell, which is the only one that may be cleared. -/
theorem Valid.restored_write (hv : Valid h t') {e : Value × Value} {cell : Cell}
    (hkeyed : t'.Keyed cell e.1) (hready : t'.Ready cell) (hp : e.2.isNil = false)
    (hlive : ∀ j, t'.Used j → cell ≠ .slot j → (t'.slot j).isLive = true)
    (hcontents : t'.contents = t.contents) (harray : t'.array.size = t.array.size)
    (hsize : t'.slots.size = t.slots.size) (hused : t'.order.toList.length ≤
      t.order.toList.length + [e].countP fun e => !inArray t.array.size e.1) :
    Restored h t [e] (t'.write cell e.2) where
  valid := hv.write hkeyed.hasCell e.2
  live := (hv.whole_write hkeyed.hasCell hp hlive).live
  matches_storeAll := by
    rw [← hcontents]
    exact hv.matches_write hkeyed hready e.2
  array_size := (array_size_write ..).trans harray
  slots_size := (slots_size_write ..).trans hsize
  used_le := by rwa [order_write]

theorem Valid.restored_reinsert (hv : Valid h t) (hlive : ∀ i, t.Used i → (t.slot i).isLive = true)
    {e : Value × Value} (hk : e.1.IsKey) (hp : e.2.isNil = false)
    (hroom : inArray t.array.size e.1 = false → t.order.toList.length < t.slots.size) :
    Restored h t [e] (t.reinsert h e) := by
  unfold reinsert
  cases hcell : t.cell? h e.1 with
  | some cell =>
    have hkeyed := hv.cell?_eq_some_iff.1 hcell
    have hready : t.Ready cell := by
      cases cell with
      | array i => trivial
      | slot i => exact fun hn => by simp [hlive i hkeyed.hasCell] at hn
    exact hv.restored_write hkeyed hready hp (fun j hj _ => hlive j hj) rfl rfl rfl
      (Nat.le_add_right ..)
  | none =>
    have hout := (hv.new_key hcell).1
    cases hins : t.insert? h e.1 with
    | none => exact absurd (hv.full_of_insert?_eq_none hins) (hroom hout).ne
    | some it =>
      obtain ⟨i, t₁⟩ := it
      have hi := hv.inserted hk hcell hins
      apply hi.valid.restored_write (hi.keyed hk) hi.ready hp ?_ hi.contents (by rw [hi.array])
        hi.size
      · rw [List.countP_singleton, hout]
        exact hi.used_le
      · intro j hj hne
        obtain ⟨x, hx, -, hvalue⟩ := hi.kept j (fun he => hne (he ▸ rfl)) hj
        rw [Slot.isLive, hvalue]
        exact hlive x hx

theorem Valid.restored_foldl (hv : Valid h t) (hlive : ∀ i, t.Used i → (t.slot i).isLive = true)
    {es : List (Value × Value)} (hk : ∀ e ∈ es, e.1.IsKey) (hp : ∀ e ∈ es, e.2.isNil = false)
    (hroom : t.order.toList.length + es.countP (fun e => !inArray t.array.size e.1) ≤
      t.slots.size) :
    Restored h t es (es.foldl (reinsert h) t) := by
  induction es generalizing t with
  | nil => exact ⟨hv, hlive, matches_refl hv.proper_contents, rfl, rfl, Nat.le_add_right ..⟩
  | cons e es ih =>
    -- what is left of the room is enough for the rest
    have hstep : Restored h t [e] (t.reinsert h e) := by
      refine hv.restored_reinsert hlive (hk e List.mem_cons_self) (hp e List.mem_cons_self)
        fun hout => ?_
      rw [List.countP_cons_of_pos (by rw [hout]; rfl)] at hroom
      omega
    have hcount : (e :: es).countP (fun e => !inArray t.array.size e.1) =
        [e].countP (fun e => !inArray t.array.size e.1) +
          es.countP fun e => !inArray t.array.size e.1 := by
      rw [← List.singleton_append, List.countP_append]
    have hused := hstep.used_le
    have hrest := ih hstep.valid hstep.live (fun e' he => hk e' (List.mem_cons_of_mem e he))
      (fun e' he => hp e' (List.mem_cons_of_mem e he)) (by
        rw [hstep.array_size, hstep.slots_size]
        omega)
    refine ⟨hrest.valid, hrest.live, ?_, hrest.array_size.trans hstep.array_size,
      hrest.slots_size.trans hstep.slots_size, ?_⟩
    · exact hrest.matches_storeAll.trans
        (hstep.matches_storeAll.storeAll fun e' he => hk e' (List.mem_cons_of_mem e he))
    · have hused' := hrest.used_le
      rw [hstep.array_size] at hused'
      rw [List.foldl_cons, hcount]
      omega

/-- A new key without a place in the array part comes after all others. -/
theorem Valid.slotEntries_reinsert (hv : Valid h t) {e : Value × Value} (hk : e.1.IsKey)
    (hp : e.2.isNil = false) (hnew : t.cell? h e.1 = none)
    (hroom : t.order.toList.length < t.slots.size) :
    (t.reinsert h e).slotEntries = t.slotEntries ++ [e] ∧ (t.reinsert h e).array = t.array := by
  rw [reinsert, hnew]
  cases hins : t.insert? h e.1 with
  | none => exact absurd (hv.full_of_insert?_eq_none hins) hroom.ne
  | some it =>
    obtain ⟨i, t₁⟩ := it
    have hi := hv.inserted hk hnew hins
    have hne : ∀ a ∈ t.slotEntries, a.1.equal e.1 = false := by
      intro a ha
      obtain ⟨j, hj, ha⟩ := mem_slotEntries.1 ha
      rw [(slotItem?_eq_some_iff.1 ha).1]
      exact (hv.new_key hnew).2 j ((hv.member j).1 hj)
    refine ⟨?_, hi.array⟩
    dsimp only
    rw [hi.slotEntries_write hk, store_end hne, hp]
    rfl

theorem Valid.contents_reinsert (hv : Valid h t) {e : Value × Value} (hk : e.1.IsKey)
    (hp : e.2.isNil = false) (hnew : t.cell? h e.1 = none)
    (hroom : t.order.toList.length < t.slots.size) :
    (t.reinsert h e).contents = t.contents ++ [e] := by
  obtain ⟨hslots, harray⟩ := hv.slotEntries_reinsert hk hp hnew hroom
  rw [contents, contents, hslots, displaced_congr harray, List.append_assoc]

/-- While no slot is cleared, the keys that have one are those in use. -/
theorem Valid.cell?_eq_none_of_live (hv : Valid h t)
    (hlive : ∀ i, t.Used i → (t.slot i).isLive = true) {k : Value}
    (hout : inArray t.array.size k = false) (hne : ∀ e ∈ t.slotEntries, e.1.equal k = false) :
    t.cell? h k = none := by
  refine hv.cell?_eq_none_iff.2 fun cell hcell => ?_
  cases cell with
  | array i =>
    rw [hcell.2, inArray_index (hcell.1.trans_le hv.array_size), decide_eq_true hcell.1] at hout
    cases hout
  | slot i =>
    have hitem : t.slotItem? i = some ((t.slot i).key, (t.slot i).value) := if_pos (hlive i hcell.1)
    have heq := hne _ (mem_slotEntries.2 ⟨i, (hv.member i).2 hcell.1, hitem⟩)
    rw [hcell.2] at heq
    cases heq

theorem Valid.contents_foldl (hv : Valid h t) (hlive : ∀ i, t.Used i → (t.slot i).isLive = true)
    {es : List (Value × Value)} (hes : Proper (t.contents ++ es))
    (hout : ∀ e ∈ es, inArray t.array.size e.1 = false)
    (hroom : t.order.toList.length + es.length ≤ t.slots.size) :
    (es.foldl (reinsert h) t).contents = t.contents ++ es := by
  induction es generalizing t with
  | nil => exact (List.append_nil _).symm
  | cons e es ih =>
    rw [List.length_cons] at hroom
    have hk := hes.isKey e (by simp)
    have hp := hes.present e (by simp)
    have hne : ∀ a ∈ t.contents, a.1.equal e.1 = false := fun a ha =>
      (List.pairwise_append.1 hes.distinct).2.2 a ha e List.mem_cons_self
    have hstep := hv.restored_reinsert hlive hk hp fun _ => by omega
    have hcontents := hv.contents_reinsert hk hp
      (hv.cell?_eq_none_of_live hlive (hout e List.mem_cons_self)
        fun a ha => hne a (List.mem_append_right _ ha)) (by omega)
    have hused := hstep.used_le.trans (Nat.add_le_add_left List.countP_le_length _)
    rw [List.length_singleton] at hused
    rw [List.foldl_cons, ih hstep.valid hstep.live, hcontents, List.append_assoc]
    · rfl
    · rwa [hcontents, List.append_assoc]
    · intro a ha
      rw [hstep.array_size]
      exact hout a (List.mem_cons_of_mem e ha)
    · rw [hstep.slots_size]
      omega

theorem array_size_bare (t : Table) (a n : Nat) : (t.bare a n).array.size = a := by
  simp only [bare, Array.size_append, Array.take_eq_extract, Array.size_extract,
    Array.size_replicate]
  omega

theorem arrayItem?_bare {a i : Nat} (n : Nat) (hi : i < a) :
    (t.bare a n).arrayItem? i = t.arrayItem? i := by
  have hget : (t.bare a n).array.getD i .nil = t.array.getD i .nil := by
    simp only [bare, Array.getD_eq_getD_getElem?, Array.getElem?_append, Array.take_eq_extract,
      Array.size_extract, Array.getElem?_extract, Array.getElem?_replicate]
    rcases Nat.lt_or_ge i t.array.size with hlt | hge
    · rw [if_pos (by omega), if_pos (by omega), Nat.zero_add]
    · rw [if_neg (by omega), if_pos (by omega), Array.getElem?_eq_none hge]
      rfl
  rw [arrayItem?, arrayItem?, hget]

theorem toList_bare (t : Table) (a n : Nat) : (t.bare a n).order.toList = [] :=
  (Order.threads_empty n).toList_eq

theorem not_used_bare (t : Table) (a n i : Nat) : ¬(t.bare a n).Used i := by
  rw [not_used, slot_replicate (t := t.bare a n) rfl]
  rfl

theorem threaded_bare (h : StringHash) (t : Table) {a n : Nat} (ha : a ≤ maxArraySize)
    (hn : n = 0 ∨ ∃ m, n = 2 ^ m) : Threaded h (t.bare a n) where
  array_size := (array_size_bare t a n).trans_le ha
  lastFree_le := (Array.size_replicate ..).ge
  chained := chained_replicate rfl hn
  links := (Array.size_replicate ..).trans (Array.size_replicate ..).symm
  threads := by
    rw [toList_bare]
    exact Order.threads_empty n
  member i := by
    rw [toList_bare]
    exact iff_of_false (List.not_mem_nil) (not_used_bare t a n i)
  apart i hi := absurd hi (not_used_bare t a n i)
  full _ hi hlt := absurd (hlt.trans_eq (Array.size_replicate ..)) (Nat.not_lt.2 hi)

theorem Valid.bare {a n : Nat} (ha : a ≤ maxArraySize) (hn : n = 0 ∨ ∃ m, n = 2 ^ m) :
    Valid h (t.bare a n) where
  toThreaded := threaded_bare h t ha hn
  distinct i _ hi := absurd hi (not_used_bare t a n i)

theorem arrayItem?_of_le {i : Nat} (hi : t.array.size ≤ i) : t.arrayItem? i = none := by
  rw [arrayItem?, Array.getD_eq_getD_getElem?, Array.getElem?_eq_none hi]
  rfl

theorem contents_eq_bare (t : Table) (a n : Nat) :
    t.contents = (t.bare a n).contents ++ t.entriesToMove a := by
  have hslots : (t.bare a n).slotEntries = [] := by rw [slotEntries, toList_bare]; rfl
  have hkept : (t.bare a n).displaced 0 = (List.range' 0 a).filterMap t.arrayItem? := by
    rw [displaced_eq, array_size_bare, Nat.sub_zero]
    exact List.filterMap_congr fun i hi => arrayItem?_bare n (by simpa using hi)
  have hbeyond : (List.range' t.array.size (a - t.array.size)).filterMap t.arrayItem? = [] := by
    refine List.filterMap_eq_nil_iff.2 fun i hi => arrayItem?_of_le ?_
    exact (List.mem_range'_1.1 hi).1
  -- both sides list the cells up to the larger of the two sizes
  have hall : (List.range' 0 t.array.size).filterMap t.arrayItem? =
      (List.range' 0 a).filterMap t.arrayItem? ++
        (List.range' a (t.array.size - a)).filterMap t.arrayItem? := by
    have h1 := List.range'_append_1 (s := 0) (m := t.array.size) (n := a - t.array.size)
    have h2 := List.range'_append_1 (s := 0) (m := a) (n := t.array.size - a)
    rw [Nat.zero_add] at h1 h2
    rw [← List.filterMap_append, h2, show a + (t.array.size - a) =
      t.array.size + (a - t.array.size) by omega, ← h1, List.filterMap_append, hbeyond,
      List.append_nil]
  rw [contents, contents, hslots, List.append_nil, hkept, entriesToMove, displaced_eq t a,
    displaced_eq t 0, Nat.sub_zero, hall, List.append_assoc]

theorem inArray_displaced (ht : t.array.size ≤ maxArraySize) {a : Nat} {e : Value × Value}
    (he : e ∈ t.displaced a) : inArray a e.1 = false := by
  obtain ⟨i, hi, hlt, he⟩ := mem_displaced.1 he
  rw [(arrayItem?_eq_some_iff.1 he).1, inArray_index (by omega)]
  exact decide_eq_false (by omega)

theorem countP_entriesToMove (ht : t.array.size ≤ maxArraySize) (a : Nat) :
    (t.entriesToMove a).countP (fun e => !inArray a e.1) = t.overflowCount a := by
  have hd : (t.displaced a).countP (fun e => !inArray a e.1) = (t.displaced a).length :=
    List.countP_eq_length.2 fun e he => by rw [inArray_displaced ht he]; rfl
  rw [entriesToMove, List.countP_append, hd, overflowCount, List.countP_eq_length_filter]

theorem inArray_contents_bare {a : Nat} (n : Nat) (ha : a ≤ maxArraySize) {e : Value × Value}
    (he : e ∈ (t.bare a n).contents) : inArray a e.1 = true := by
  have hslots : (t.bare a n).slotEntries = [] := by rw [slotEntries, toList_bare]; rfl
  rw [contents, hslots, List.append_nil] at he
  obtain ⟨i, -, hi, he⟩ := mem_displaced.1 he
  rw [array_size_bare] at hi
  rw [(arrayItem?_eq_some_iff.1 he).1, inArray_index (by omega), decide_eq_true hi]

theorem countP_contents (ht : t.array.size ≤ maxArraySize) {a : Nat} (ha : a ≤ maxArraySize) :
    t.contents.countP (fun e => !inArray a e.1) = t.overflowCount a := by
  have hkept : (t.bare a 0).contents.countP (fun e => !inArray a e.1) = 0 := by
    refine List.countP_eq_zero.2 fun e he => ?_
    rw [inArray_contents_bare 0 ha he]
    exact Bool.false_ne_true
  rw [contents_eq_bare t a 0, List.countP_append, hkept, countP_entriesToMove ht, Nat.zero_add]

theorem le_capacity (n : Nat) : n ≤ capacity n := by
  unfold capacity
  split_ifs
  · omega
  · omega
  · have hlt := Nat.lt_log2_self (n := n - 1)
    omega

theorem capacity_eq (n : Nat) : capacity n = 0 ∨ ∃ m, capacity n = 2 ^ m := by
  unfold capacity
  split_ifs
  · exact .inl rfl
  · exact .inr ⟨0, rfl⟩
  · exact .inr ⟨_, Nat.one_shiftLeft _⟩

/-- `t'` holds what `t` does over parts of `a` and `n` places, without cleared slots. -/
structure Resized (h : StringHash) (t : Table) (a n : Nat) (t' : Table) : Prop where
  valid : Valid h t'
  live : ∀ i, t'.Used i → (t'.slot i).isLive = true
  matches_contents : Matches t'.contents t.contents
  array_size : t'.array.size = a
  slots_size : t'.slots.size = n
  used_le : t'.order.toList.length ≤ t.overflowCount a

theorem Valid.resized_rebuild (hv : Valid h t) {a n : Nat} (ha : a ≤ maxArraySize)
    (hn : n = 0 ∨ ∃ m, n = 2 ^ m) (hroom : t.overflowCount a ≤ n) :
    Resized h t a n (t.rebuild h a n) := by
  have hsize : (t.bare a n).slots.size = n := Array.size_replicate ..
  have hproper := hv.proper_contents
  rw [contents_eq_bare t a n] at hproper
  have hes : ∀ e ∈ t.entriesToMove a, e.1.IsKey ∧ e.2.isNil = false := fun e he =>
    ⟨hproper.isKey e (List.mem_append_right _ he), hproper.present e (List.mem_append_right _ he)⟩
  have hr := (Valid.bare (h := h) (t := t) ha hn).restored_foldl
    (fun i hi => absurd hi (not_used_bare t a n i)) (fun e he => (hes e he).1)
    (fun e he => (hes e he).2) (by
      rw [toList_bare, array_size_bare, countP_entriesToMove hv.array_size, hsize]
      simpa using hroom)
  have hused := hr.used_le
  rw [toList_bare, array_size_bare, countP_entriesToMove hv.array_size] at hused
  refine ⟨hr.valid, hr.live, ?_, hr.array_size.trans (array_size_bare t a n),
    hr.slots_size.trans hsize, ?_⟩
  swap
  · rw [rebuild]
    simpa using hused
  rw [contents_eq_bare t a n, ← storeAll_eq_append hproper]
  exact hr.matches_storeAll

/-- A resize is refused or done as a whole. -/
theorem Valid.resize_cases (hv : Valid h t) (c : Collector) (a n : Nat) :
    (∃ e, (t.resize h c a n).result = .error e ∧ (t.resize h c a n).table = t) ∨
      (t.resize h c a n).result = .ok () ∧ Resized h t (min a maxArraySize)
        (capacity (max n (t.overflowCount (min a maxArraySize)))) (t.resize h c a n).table := by
  unfold resize
  dsimp only
  split
  · exact .inl ⟨_, rfl, rfl⟩
  · split
    · exact .inl ⟨_, rfl, rfl⟩
    · exact .inr ⟨rfl, hv.resized_rebuild (Nat.min_le_right ..) (capacity_eq _)
        ((Nat.le_max_right ..).trans (le_capacity _))⟩

theorem inArray_eq_false_of_le {k : Value} {a b : Nat} (hab : a ≤ b) (hb : inArray b k = false) :
    inArray a k = false := by
  unfold inArray at hb ⊢
  cases hk : k.toInteger? with
  | none => rfl
  | some n =>
    simp only [hk, decide_eq_false_iff_not] at hb ⊢
    omega

/-- Unless the array part grows, all entries keep their order. -/
theorem Valid.contents_rebuild (hv : Valid h t) {a n : Nat} (ha : a ≤ t.array.size)
    (hn : n = 0 ∨ ∃ m, n = 2 ^ m) (hroom : t.overflowCount a ≤ n) :
    (t.rebuild h a n).contents = t.contents := by
  have hproper := hv.proper_contents
  rw [contents_eq_bare t a n] at hproper
  have hout : ∀ e ∈ t.entriesToMove a, inArray a e.1 = false := by
    intro e he
    rcases List.mem_append.1 he with he | he
    · exact inArray_displaced hv.array_size he
    · obtain ⟨i, hi, he⟩ := mem_slotEntries.1 he
      rw [(slotItem?_eq_some_iff.1 he).1]
      exact inArray_eq_false_of_le ha (hv.apart i ((hv.member i).1 hi))
  have hlength : (t.entriesToMove a).length = t.overflowCount a := by
    rw [← countP_entriesToMove hv.array_size, eq_comm, List.countP_eq_length]
    intro e he
    rw [hout e he]
    rfl
  rw [rebuild, (Valid.bare (h := h) (t := t) (ha.trans hv.array_size) hn).contents_foldl
    (fun i hi => absurd hi (not_used_bare t _ n i)) hproper, ← contents_eq_bare]
  · rwa [array_size_bare]
  · rw [toList_bare, hlength]
    simpa [Table.bare] using hroom

theorem table_resize {a n : Nat} (hok : (t.resize h c a n).result = .ok ()) :
    (t.resize h c a n).table = t.rebuild h (min a maxArraySize)
      (capacity (max n (t.overflowCount (min a maxArraySize)))) := by
  revert hok
  unfold resize
  dsimp only
  split
  · exact fun hok => by cases hok
  · split
    · exact fun hok => by cases hok
    · exact fun _ => rfl

theorem Valid.contents_resize (hv : Valid h t) {a n : Nat}
    (hok : (t.resize h c a n).result = .ok ())
    (hsize : (t.resize h c a n).table.array.size = t.array.size) :
    (t.resize h c a n).table.contents = t.contents := by
  have ha : min a maxArraySize = t.array.size := by
    rcases hv.resize_cases c a n with ⟨e, he, -⟩ | ⟨-, hr⟩
    · rw [hok] at he
      cases he
    · rw [← hr.array_size, hsize]
  rw [table_resize hok, ha]
  exact hv.contents_rebuild le_rfl (capacity_eq _) ((Nat.le_max_right ..).trans (le_capacity _))

theorem candidate_le {a : Nat} (ha : a ≤ maxArraySize) (k : Value) :
    ((arrayCandidate? k).map fun n => decide (n ≤ a)).getD false = inArray a k := by
  unfold arrayCandidate? inArray
  cases k.toInteger? with
  | none => rfl
  | some n =>
    dsimp only
    split_ifs with hn
    · simp only [Option.map_some, Option.getD_some, decide_eq_decide]
      omega
    · refine (decide_eq_false ?_).symm
      omega

theorem Valid.contents_rehash (hv : Valid h t) {k : Value} (hok : (t.rehash h c k).result = .ok ())
    (hsize : (t.rehash h c k).table.array.size = t.array.size) :
    (t.rehash h c k).table.contents = t.contents := hv.contents_resize hok hsize

/-- Of the keys that are counted the array part takes those that it has a place for. -/
theorem countP_candidates {a : Nat} (ha : a ≤ maxArraySize) (ks : List Value) :
    ((ks.filterMap arrayCandidate?).countP fun n => decide (n ≤ a)) = ks.countP (inArray a) := by
  rw [List.countP_filterMap]
  exact List.countP_congr fun k _ => by rw [candidate_le ha]

/-- The hash part is sized for the entries that the array part does not take, and for the key to be
added unless the array part takes it. -/
theorem Valid.used_sub_choose (hv : Valid h t) (k : Value) :
    (t.census k).choose.1 ≤ maxArraySize ∧
      (t.census k).used - (t.census k).choose.2 =
        t.overflowCount (t.census k).choose.1 +
          if inArray (t.census k).choose.1 k then 0 else 1 := by
  have hchosen := Census.chosen_choose (t.contents.map Prod.fst ++ [k])
  have hused : (t.census k).used = t.contents.length + 1 := by
    rw [hv.census_eq, Census.ofKeys, List.length_append, List.length_map, List.length_singleton]
  rw [← hv.census_eq] at hchosen
  generalize (t.census k).choose = r at *
  have ha := hchosen.le_maxArraySize
  have hinside := hchosen.inside
  rw [countP_candidates ha, List.countP_append, List.countP_singleton, List.countP_map] at hinside
  have hsplit := t.contents.length_eq_countP_add_countP fun e => inArray r.1 e.1
  have hout : t.contents.countP (fun e => !inArray r.1 e.1) = t.overflowCount r.1 :=
    countP_contents hv.array_size ha
  have htaken : t.contents.countP (inArray r.1 ∘ Prod.fst) =
    t.contents.countP fun e => inArray r.1 e.1 := rfl
  simp only [Bool.not_eq_true, Bool.decide_eq_false] at hsplit
  refine ⟨ha, ?_⟩
  rw [hused]
  split_ifs at hinside ⊢ <;> omega

/-- Sizing both parts anew for a key makes room for it. -/
theorem Valid.rehash_cases (hv : Valid h t) (c : Collector) (k : Value) :
    (∃ e, (t.rehash h c k).result = .error e ∧ (t.rehash h c k).table = t) ∨
      (t.rehash h c k).result = .ok () ∧ ∃ a n, Resized h t a n (t.rehash h c k).table ∧
        (inArray a k = false → t.overflowCount a < n) := by
  obtain ⟨ha, hhash⟩ := hv.used_sub_choose k
  unfold rehash
  dsimp only
  generalize (t.census k).choose = r at *
  refine (hv.resize_cases _ r.1 _).imp id fun ⟨hok, hr⟩ => ⟨hok, _, _, hr, fun hk => ?_⟩
  rw [Nat.min_eq_left ha] at hk ⊢
  rw [hhash, hk, if_neg Bool.false_ne_true]
  exact ((Nat.le_max_left ..).trans (le_capacity _))

end LuaData.Table
