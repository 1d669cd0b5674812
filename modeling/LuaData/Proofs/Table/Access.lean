import LuaData.Proofs.Table.Valid
import LuaData.Table.Length

namespace LuaData.Table

open Ledger

variable {h : StringHash} {t t' : Table} {k v : Value} {c : Cell}

def HasCell (t : Table) : Cell → Prop
  | .array i => i < t.array.size
  | .slot i => t.Used i

theorem Keyed.hasCell (hc : t.Keyed c k) : t.HasCell c := by
  cases c <;> exact hc.1

/-- A search for a slot that holds a key ends at a used one. -/
theorem search_used {p : Slot → Bool} (hp : ∀ s : Slot, p s = true → s.isFree = false) {i : Nat}
    (hs : t.search h k p = some i) : t.Used i := by
  obtain ⟨j, -, hf⟩ := Option.bind_eq_some_iff.1 hs
  exact hp _ (follow_sound hf).2

theorem findSlot_used (hk : k.isNil = false) {i : Nat} (hs : t.findSlot h k = some i) :
    t.Used i := by
  refine search_used (p := fun s => s.key.equal k) (fun s he => ?_) hs
  rw [Slot.isFree, Value.isNil_congr he, hk]

theorem cell?_hasCell (hc : t.cell? h k = some c) : t.HasCell c := by
  unfold cell? at hc
  split at hc
  · rename_i i hi
    cases hc
    unfold arrayIndex? at hi
    split at hi
    · rw [Option.ite_none_right_eq_some] at hi
      obtain ⟨hn, hi⟩ := hi
      cases hi
      rw [HasCell]
      omega
    · cases hi
  · split_ifs at hc with hk
    obtain ⟨i, hi, rfl⟩ := Option.map_eq_some_iff.1 hc
    exact findSlot_used (Bool.not_eq_true _ ▸ hk) hi

theorem Threaded.threads_moveToEnd (ht : Threaded h t) {i : Nat} (hi : i < t.slots.size) :
    (t.order.moveToEnd i).Threads (t.order.toList.erase i ++ [i]) :=
  ht.threads.moveToEnd (ht.links ▸ hi)

theorem Threaded.mem_moveToEnd (ht : Threaded h t) (i j : Nat) :
    j ∈ t.order.toList.erase i ++ [i] ↔ j = i ∨ t.Used j := by
  rw [List.mem_append, ht.threads.nodup.mem_erase_iff, List.mem_singleton, ht.member]
  by_cases hj : j = i <;> simp [hj]

theorem Threaded.moveToEnd (ht : Threaded h t) {i : Nat} (hi : t.Used i) :
    Threaded h (t.moveToEnd i) := by
  refine ht.congr rfl rfl rfl (fun _ => rfl) (fun _ => rfl) (fun _ _ => rfl)
    (Order.size_moveToEnd i) (ht.threads_moveToEnd hi.lt_size) fun j => ?_
  rw [ht.mem_moveToEnd, or_iff_right_of_imp]
  rintro rfl
  exact hi

theorem Valid.moveToEnd (hv : Valid h t) {i : Nat} (hi : t.Used i) : Valid h (t.moveToEnd i) where
  toThreaded := hv.toThreaded.moveToEnd hi
  distinct := hv.distinct.congr fun _ => rfl

/-- What gives nothing may be put at the end unnoticed. -/
theorem filterMap_erase_concat {ι α : Type} [DecidableEq ι] {is : List ι} (hn : is.Nodup)
    {f : ι → Option α} {i : ι} (hf : f i = none) :
    (is.erase i ++ [i]).filterMap f = is.filterMap f := by
  rw [hn.erase_eq_filter, List.filterMap_append, List.filterMap_filter, List.filterMap_cons, hf,
    List.filterMap_nil, List.append_nil]
  refine List.filterMap_congr fun j _ => ?_
  by_cases hj : j = i
  · simp [hj, hf]
  · simp [hj]

theorem slotItem?_of_not_live {i : Nat} (hi : (t.slot i).isLive = false) :
    t.slotItem? i = none := by
  rw [slotItem?, hi]
  rfl

/-- An absent entry may become the most recent one unnoticed. -/
theorem Valid.slotEntries_moveToEnd (hv : Valid h t) {i : Nat} (hi : i < t.slots.size)
    (hlive : (t.slot i).isLive = false) : (t.moveToEnd i).slotEntries = t.slotEntries := by
  calc (t.moveToEnd i).slotEntries
      = (t.order.moveToEnd i).toList.filterMap t.slotItem? := rfl
    _ = (t.order.toList.erase i ++ [i]).filterMap t.slotItem? := by
        rw [(hv.threads_moveToEnd hi).toList_eq]
    _ = t.slotEntries := filterMap_erase_concat hv.threads.nodup (slotItem?_of_not_live hlive)

@[simp] theorem keyed_touch (t : Table) (c c' : Cell) (k : Value) :
    (t.touch c).Keyed c' k ↔ t.Keyed c' k := by
  cases c with
  | array i => rfl
  | slot i =>
    rw [Table.touch]
    split_ifs <;> cases c' <;> rfl

theorem touch_eq (t : Table) (c : Cell) : ∃ o, t.touch c = { t with order := o } := by
  cases c with
  | array i => exact ⟨t.order, rfl⟩
  | slot i =>
    rw [Table.touch]
    split_ifs
    · exact ⟨t.order, rfl⟩
    · exact ⟨t.order.moveToEnd i, rfl⟩

@[simp] theorem array_touch (t : Table) (c : Cell) : (t.touch c).array = t.array := by
  obtain ⟨o, ho⟩ := touch_eq t c
  rw [ho]

@[simp] theorem slots_touch (t : Table) (c : Cell) : (t.touch c).slots = t.slots := by
  obtain ⟨o, ho⟩ := touch_eq t c
  rw [ho]

@[simp] theorem lastFree_touch (t : Table) (c : Cell) : (t.touch c).lastFree = t.lastFree := by
  obtain ⟨o, ho⟩ := touch_eq t c
  rw [ho]

/-- `t'` is what look-ups leave of `t`. -/
inductive Touched (t : Table) : Table → Prop
  | refl : Touched t t
  | touch {t' : Table} (c : Cell) : Touched t t' → t'.HasCell c → Touched t (t'.touch c)

theorem Touched.trans {t'' : Table} (ht : Touched t t') (ht' : Touched t' t'') :
    Touched t t'' := by
  induction ht' with
  | refl => exact ht
  | touch c _ hc ih => exact .touch c ih hc

theorem Threaded.touch (ht : Threaded h t) (hc : t.HasCell c) : Threaded h (t.touch c) := by
  cases c with
  | array i => exact ht
  | slot i =>
    rw [Table.touch]
    split_ifs
    · exact ht
    · exact ht.moveToEnd hc

theorem Touched.threaded (ht : Touched t t') (hu : Threaded h t) : Threaded h t' := by
  induction ht with
  | refl => exact hu
  | touch c _ hc ih => exact ih.touch hc

theorem Valid.touch (hv : Valid h t) (hc : t.HasCell c) :
    Valid h (t.touch c) ∧ (t.touch c).contents = t.contents := by
  cases c with
  | array i => exact ⟨hv, rfl⟩
  | slot i =>
    rw [Table.touch]
    split_ifs with hlive
    · exact ⟨hv, rfl⟩
    · refine ⟨hv.moveToEnd hc, ?_⟩
      have he := hv.slotEntries_moveToEnd hc.lt_size (Bool.not_eq_true _ ▸ hlive)
      exact congrArg₂ (· ++ ·) (displaced_congr rfl) he

theorem Touched.valid (ht : Touched t t') (hv : Valid h t) :
    Valid h t' ∧ t'.contents = t.contents := by
  induction ht with
  | refl => exact ⟨hv, rfl⟩
  | touch c _ hc ih =>
    obtain ⟨hv', he⟩ := ih.1.touch hc
    exact ⟨hv', he.trans ih.2⟩

theorem touched_visit {c? : Option Cell} (hc : ∀ c, c? = some c → t.HasCell c) :
    Touched t (t.visit c?).2 := by
  cases c? with
  | none => exact .refl
  | some c => exact .touch c .refl (hc c rfl)

theorem touched_get (k : Value) : Touched t (t.get h k).2 := touched_visit fun _ => cell?_hasCell

theorem touched_getInt (n : Int) : Touched t (t.getInt h n).2 := by
  unfold getInt
  split_ifs with hn
  · refine touched_visit fun c hc => ?_
    cases hc
    rw [HasCell]
    omega
  · refine touched_visit fun c hc => ?_
    obtain ⟨i, hi, rfl⟩ := Option.map_eq_some_iff.1 hc
    exact findSlot_used rfl hi

theorem touched_getStr (s : Str) : Touched t (t.getStr h s).2 := by
  unfold getStr
  split_ifs
  · refine touched_visit fun c hc => ?_
    obtain ⟨i, hi, rfl⟩ := Option.map_eq_some_iff.1 hc
    refine search_used (fun x hx => ?_) hi
    rw [Slot.isFree, beq_iff_eq.1 hx]
    rfl
  · exact touched_get _

theorem touched_hasInt (n : Nat) : Touched t (t.hasInt h n).2 := touched_getInt n

theorem touched_borderBetween (fuel i j : Nat) : Touched t (t.borderBetween h fuel i j).2 := by
  induction fuel generalizing t i j with
  | zero => exact .refl
  | succ fuel ih =>
    rw [borderBetween]
    split_ifs
    · exact .refl
    · have hstep : Touched t (t.hasInt h ((i + j) / 2)).2 := touched_hasInt _
      dsimp only
      split <;> rename_i heq <;> rw [heq] at hstep <;> exact hstep.trans (ih ..)

theorem touched_lastPresentFrom (fuel i : Nat) :
    Touched t (t.lastPresentFrom h fuel i).2 := by
  induction fuel generalizing t i with
  | zero => exact .refl
  | succ fuel ih =>
    have hstep : Touched t (t.hasInt h i).2 := touched_hasInt i
    rw [lastPresentFrom]
    split <;> rename_i heq <;> rw [heq] at hstep
    · exact hstep.trans (ih _)
    · exact hstep

theorem touched_borderBeyond (fuel i j : Nat) : Touched t (t.borderBeyond h fuel i j).2 := by
  induction fuel generalizing t i j with
  | zero => exact .refl
  | succ fuel ih =>
    have hstep : Touched t (t.hasInt h j).2 := touched_hasInt j
    rw [borderBeyond]
    split <;> rename_i heq <;> rw [heq] at hstep
    · exact hstep.trans (touched_borderBetween ..)
    · split_ifs
      · exact hstep.trans (touched_lastPresentFrom ..)
      · exact hstep.trans (ih ..)

theorem touched_length : Touched t (t.length h).2 := by
  unfold length
  dsimp only
  split_ifs
  · exact .refl
  · exact .refl
  · exact touched_borderBeyond ..

theorem slot_write_slot (t : Table) (i j : Nat) (v : Value) : (t.write (.slot i) v).slot j =
    if i = j ∧ j < t.slots.size then { t.slot i with value := v } else t.slot j :=
  slot_setSlot ..

theorem key_write (t : Table) (c : Cell) (v : Value) (j : Nat) :
    ((t.write c v).slot j).key = (t.slot j).key := by
  cases c with
  | array i => rfl
  | slot i =>
    rw [slot_write_slot]
    split_ifs with hj
    · rw [hj.1]
    · rfl

theorem chain_write (t : Table) (c : Cell) (v : Value) (j : Nat) :
    ((t.write c v).slot j).chain = (t.slot j).chain := by
  cases c with
  | array i => rfl
  | slot i =>
    rw [slot_write_slot]
    split_ifs with hj
    · rw [hj.1]
    · rfl

@[simp] theorem slots_size_write (t : Table) (c : Cell) (v : Value) :
    (t.write c v).slots.size = t.slots.size := by
  cases c with
  | array i => rfl
  | slot i => exact size_setSlot ..

@[simp] theorem array_size_write (t : Table) (c : Cell) (v : Value) :
    (t.write c v).array.size = t.array.size := by
  cases c with
  | array i => exact Array.size_setIfInBounds
  | slot i => rfl

@[simp] theorem order_write (t : Table) (c : Cell) (v : Value) :
    (t.write c v).order = t.order := by cases c <;> rfl

@[simp] theorem lastFree_write (t : Table) (c : Cell) (v : Value) :
    (t.write c v).lastFree = t.lastFree := by cases c <;> rfl

@[simp] theorem used_write (t : Table) (c : Cell) (v : Value) (i : Nat) :
    (t.write c v).Used i ↔ t.Used i := by
  rw [Used, Used, Slot.isFree, Slot.isFree, key_write]

@[simp] theorem keyed_write (t : Table) (c c' : Cell) (k v : Value) :
    (t.write c v).Keyed c' k ↔ t.Keyed c' k := by
  cases c' with
  | array i => rw [Keyed, Keyed, array_size_write]
  | slot i => rw [Keyed, Keyed, used_write, key_write]

theorem Threaded.write (ht : Threaded h t) (hc : ∀ i, c = .slot i → t.Used i) (v : Value) :
    Threaded h (t.write c v) := by
  refine ht.congr (array_size_write ..) (slots_size_write ..) (lastFree_write ..) (key_write t c v)
    (chain_write t c v) (fun j hj => ?_) (by rw [order_write])
    (by rw [order_write]; exact ht.threads) ht.member
  cases c with
  | array i => rfl
  | slot i =>
    have hne : ¬(i = j ∧ j < t.slots.size) := fun he => hj (he.1 ▸ hc i rfl)
    rw [slot_write_slot, if_neg hne]

theorem HasCell.used (hc : t.HasCell c) (i : Nat) (hi : c = .slot i) : t.Used i := by
  cases hi
  exact hc

theorem Valid.write (hv : Valid h t) (hc : t.HasCell c) (v : Value) : Valid h (t.write c v) where
  toThreaded := hv.toThreaded.write hc.used v
  distinct := hv.distinct.congr (key_write t c v)

theorem read_write (hc : t.HasCell c) (v : Value) (c' : Cell) :
    (t.write c v).read c' = if c = c' then v else t.read c' := by
  cases c with
  | array i =>
    cases c' with
    | array j =>
      simp only [read, Table.write, Array.getD_eq_getD_getElem?, Array.getElem?_setIfInBounds,
        Cell.array.injEq]
      split_ifs with hij hlt
      · rfl
      · exact absurd (hij ▸ hc) hlt
      · rfl
    | slot j => rfl
  | slot i =>
    cases c' with
    | array j => rfl
    | slot j =>
      rw [read, slot_write_slot]
      simp only [Cell.slot.injEq]
      by_cases hij : i = j
      · rw [if_pos ⟨hij, hij ▸ Used.lt_size hc⟩, if_pos hij]
      · rw [if_neg fun hn => hij hn.1, if_neg hij]
        rfl

/-- The entry of the cell `c` may become present: then it is the most recent one. -/
def Ready (t : Table) : Cell → Prop
  | .array _ => True
  | .slot i => (t.slot i).isLive = false → t.order.toList.getLast? = some i

theorem Valid.ready_touch (hv : Valid h t) (hc : t.HasCell c) : (t.touch c).Ready c := by
  cases c with
  | array i => trivial
  | slot i =>
    rw [Table.touch]
    split_ifs with hlive
    · exact fun hn => by simp [hn] at hlive
    · intro _
      exact (congrArg List.getLast? (hv.threads_moveToEnd (Used.lt_size hc)).toList_eq).trans
        List.getLast?_concat

/-- The entries of the slots before and after slot `i`, with its own between them. -/
theorem slotEntries_split {xs ys : List Nat} {i : Nat} (hs : t.order.toList = xs ++ i :: ys) :
    t.slotEntries =
      xs.filterMap t.slotItem? ++ ((t.slotItem? i).toList ++ ys.filterMap t.slotItem?) := by
  rw [slotEntries, hs, List.filterMap_append, List.filterMap_cons]
  cases t.slotItem? i <;> rfl

/-- The entries of other slots have other keys. -/
theorem Valid.equal_key_eq_false (hv : Valid h t) {i : Nat} (hi : t.Used i) {js : List Nat}
    (hij : i ∉ js) (hjs : ∀ j ∈ js, t.Used j) :
    ∀ e ∈ js.filterMap t.slotItem?, e.1.equal (t.slot i).key = false := by
  intro e he
  obtain ⟨j, hj, he⟩ := List.mem_filterMap.1 he
  rw [(slotItem?_eq_some_iff.1 he).1, Bool.eq_false_iff]
  exact fun heq => hij (hv.distinct j i (hjs j hj) hi heq ▸ hj)

theorem Valid.slotEntries_write_slot (hv : Valid h t) {i : Nat} (hi : t.Used i)
    (hr : t.Ready (.slot i)) (v : Value) :
    (t.write (.slot i) v).slotEntries = Ledger.store t.slotEntries (t.slot i).key v := by
  obtain ⟨xs, ys, hs⟩ := List.append_of_mem ((hv.member i).2 hi)
  have hn := (List.nodup_middle.1 (hs ▸ hv.threads.nodup)).notMem
  rw [List.mem_append, not_or] at hn
  have hused : ∀ j, j ∈ xs ∨ j ∈ ys → t.Used j := fun j hj =>
    (hv.member j).1 (by rw [hs]; rcases hj with hj | hj <;> simp [hj])
  have hxs := hv.equal_key_eq_false hi hn.1 fun j hj => hused j (.inl hj)
  have hys := hv.equal_key_eq_false hi hn.2 fun j hj => hused j (.inr hj)
  have hself : (t.slot i).key.equal (t.slot i).key = true := (hv.chained.isKey i hi).equal_self
  have hrest : ∀ zs : List Nat, i ∉ zs →
      zs.filterMap (t.write (.slot i) v).slotItem? = zs.filterMap t.slotItem? := fun zs hz => by
    refine List.filterMap_congr fun j hj => ?_
    have hne : ¬(i = j ∧ j < t.slots.size) := fun he => hz (he.1 ▸ hj)
    rw [slotItem?, slotItem?, slot_write_slot, if_neg hne]
  have hitem : ((t.write (.slot i) v).slotItem? i).toList =
      if v.isNil then [] else [((t.slot i).key, v)] := by
    have hslot : (t.write (.slot i) v).slot i = { t.slot i with value := v } := by
      rw [slot_write_slot, if_pos ⟨rfl, hi.lt_size⟩]
    rw [slotItem?, hslot, Slot.isLive]
    cases v.isNil <;> rfl
  rw [slotEntries_split (t := t.write (.slot i) v) ((order_write ..).symm ▸ hs),
    slotEntries_split hs, hitem, hrest xs hn.1, hrest ys hn.2]
  by_cases hlive : (t.slot i).isLive = true
  · rw [slotItem?, if_pos hlive]
    exact (store_middle (e := ((t.slot i).key, (t.slot i).value)) hself hxs hys).symm
  · -- a cleared entry comes back at the end, which is where its slot already is
    have hlast := hr (Bool.not_eq_true _ ▸ hlive)
    have hnil : ys = [] := by
      by_contra hne
      rw [hs] at hlast
      exact Order.getLast?_ne (hs ▸ hv.threads.nodup) hne hlast
    rw [slotItem?, if_neg hlive, hnil]
    simp only [Option.toList_none, List.filterMap_nil, List.append_nil]
    exact (store_end hxs).symm

/-- Writing to the cell of a key is a store under the key. -/
theorem Valid.matches_write {h : SeededHash} (hv : Valid h t) (hc : t.Keyed c k) (hr : t.Ready c)
    (v : Value) :
    Matches (t.write c v).contents (t.contents.store k v) := by
  have hv' := hv.write hc.hasCell v
  constructor
  · intro k' w
    rw [hv'.holds_contents, holds_store, hv.holds_contents]
    simp only [keyed_write, read_write hc.hasCell]
    split_ifs with he
    · constructor
      · rintro ⟨c', hc', hw, hn⟩
        rw [if_pos ((hc.congr hv he).eq hv hc')] at hw
        exact ⟨hw ▸ hn, hw.symm⟩
      · rintro ⟨hn, rfl⟩
        exact ⟨c, hc.congr hv he, if_pos rfl, hn⟩
    · refine exists_congr fun c' => and_congr_right fun hc' => ?_
      have hne : c ≠ c' := by
        rintro rfl
        exact he (hc.equal hc')
      rw [if_neg hne]
  · rw [hv'.outside_contents, outside_store, hv.outside_contents]
    cases c with
    | array i =>
      have hk : k.neverInArray = false := hc.2 ▸ neverInArray_index (hc.1.trans_le hv.array_size)
      rw [hk]
      exact forall₂_alike_refl (hv.proper_slotEntries.sublist List.filter_sublist)
    | slot i =>
      rw [hv.slotEntries_write_slot hc.1 hr, outside_store, Value.neverInArray_congr hc.2]
      have hp : Proper (outside t.slotEntries) :=
        hv.proper_slotEntries.sublist List.filter_sublist
      split_ifs
      · exact forall₂_store_key hp hc.2
      · exact forall₂_alike_refl hp

end LuaData.Table
