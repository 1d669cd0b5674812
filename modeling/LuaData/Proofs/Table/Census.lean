import LuaData.Proofs.Table.Insertion

namespace LuaData

theorem Table.arrayCandidate?_eq_some_iff {k : Value} {n : Nat} :
    Table.arrayCandidate? k = some n ↔
      (1 ≤ n ∧ n ≤ Table.maxArraySize) ∧ k.toInteger? = some (n : Int) := by
  unfold Table.arrayCandidate?
  cases k.toInteger? with
  | none => simp
  | some m =>
    simp only [Option.ite_none_right_eq_some, Option.some.injEq]
    omega

namespace Census

theorem sliceOf_le_iff {n j : Nat} : sliceOf n ≤ j ↔ n ≤ 2 ^ j := by
  have hpow : 0 < 2 ^ j := Nat.two_pow_pos j
  unfold sliceOf
  split_ifs with hn
  · omega
  · rw [Nat.succ_le_iff, Nat.log2_lt (by omega)]
    omega

/-- The slices below `j` reach up to the half of `2 ^ j`. -/
theorem sliceOf_lt_iff {n j : Nat} (hn : 1 ≤ n) : sliceOf n < j ↔ n ≤ 2 ^ j / 2 := by
  cases j with
  | zero => omega
  | succ j =>
    rw [Nat.lt_succ_iff, sliceOf_le_iff, Nat.pow_succ]
    omega

theorem sliceOf_lt_sliceCount {n : Nat} (hn : n ≤ Table.maxArraySize) : sliceOf n < sliceCount := by
  rw [Table.maxArraySize, Nat.one_shiftLeft] at hn
  exact Nat.lt_succ_of_le (sliceOf_le_iff.2 hn)

def below (ns : List Nat) (j : Nat) : Nat := ns.countP fun n => decide (sliceOf n < j)

theorem below_succ (ns : List Nat) (j : Nat) :
    below ns (j + 1) = below ns j + ns.countP fun n => sliceOf n == j := by
  induction ns with
  | nil => rfl
  | cons n ns ih =>
    simp only [below, List.countP_cons, beq_iff_eq, decide_eq_true_eq] at ih ⊢
    split_ifs <;> omega

theorem below_succ_eq (ns : List Nat) (j : Nat) :
    below ns (j + 1) = ns.countP fun n => decide (n ≤ 2 ^ j) :=
  List.countP_congr fun n _ => by simp only [decide_eq_true_eq, Nat.lt_succ_iff, sliceOf_le_iff]

theorem below_mono (ns : List Nat) {i j : Nat} (hij : i ≤ j) : below ns i ≤ below ns j :=
  List.countP_mono_left fun n _ hn => by
    rw [decide_eq_true_eq] at hn ⊢
    omega

theorem below_le_length (ns : List Nat) (j : Nat) : below ns j ≤ ns.length := List.countP_le_length

/-- There are not more positive integers up to `m` than `m`. -/
theorem countP_le_of_nodup {ns : List Nat} (hpos : ∀ n ∈ ns, 1 ≤ n) (hnodup : ns.Nodup) (m : Nat) :
    ns.countP (fun n => decide (n ≤ m)) ≤ m := by
  have hsub : ns.filter (fun n => decide (n ≤ m)) ⊆ List.range' 1 m := fun n hn => by
    rw [List.mem_filter, decide_eq_true_eq] at hn
    have := hpos n hn.1
    rw [List.mem_range'_1]
    omega
  have hle := ((hnodup.filter _).subperm hsub).length_le
  rwa [List.length_range', ← List.countP_eq_length_filter] at hle

theorem below_le {ns : List Nat} (hpos : ∀ n ∈ ns, 1 ≤ n) (hnodup : ns.Nodup) (j : Nat) :
    below ns j ≤ 2 ^ j / 2 := by
  cases j with
  | zero => simp [below]
  | succ j =>
    have hle := countP_le_of_nodup hpos hnodup (2 ^ j)
    rw [below_succ_eq, Nat.pow_succ]
    omega

def ofKeys (ks : List Value) : Census where
  used := ks.length
  candidates := (ks.filterMap Table.arrayCandidate?).length
  slices := (List.range sliceCount).map fun i =>
    (ks.filterMap Table.arrayCandidate?).countP fun n => sliceOf n == i

/-- It does not matter in which order keys are counted. -/
theorem ofKeys_perm {ks ks' : List Value} (h : ks.Perm ks') : ofKeys ks = ofKeys ks' := by
  have hc := h.filterMap Table.arrayCandidate?
  simp only [ofKeys, h.length_eq, hc.length_eq, hc.countP_eq]

theorem modify_map_range (f : Nat → Nat) (m i : Nat) :
    ((List.range m).map f).modify i (· + 1) =
      (List.range m).map fun j => f j + if i = j then 1 else 0 := by
  refine List.ext_getElem (by simp) fun j hj _ => ?_
  simp only [List.getElem_modify, List.getElem_map, List.getElem_range]
  split_ifs <;> rfl

theorem add_ofKeys (ks : List Value) (k : Value) : (ofKeys ks).add k = ofKeys (ks ++ [k]) := by
  unfold add
  cases hk : Table.arrayCandidate? k with
  | none => simp [ofKeys, hk]
  | some n =>
    simp only [ofKeys, modify_map_range, List.filterMap_append, List.length_append,
      List.filterMap_cons, hk, List.filterMap_nil, List.countP_append, List.countP_singleton,
      beq_iff_eq, List.length_singleton]

theorem foldl_add (ks ks' : List Value) : ks'.foldl add (ofKeys ks) = ofKeys (ks ++ ks') := by
  induction ks' generalizing ks with
  | nil => rw [List.append_nil]; rfl
  | cons k ks' ih => rw [List.foldl_cons, add_ofKeys, ih, List.append_assoc]; rfl

def Dense (ns : List Nat) (n : Nat) : Prop := n / 2 < ns.countP fun m => decide (m ≤ n)

/-- The size `r.1` is the largest power of two below `2 ^ j` of which more than half is in use, 0 if
there is none, and it takes `r.2` of the keys. -/
structure Chosen (ns : List Nat) (j : Nat) (r : Nat × Nat) : Prop where
  size : r.1 = 0 ∨ Dense ns r.1 ∧ ∃ i < j, r.1 = 2 ^ i
  inside : r.2 = ns.countP fun m => decide (m ≤ r.1)
  largest : ns.Nodup → ∀ i < j, Dense ns (2 ^ i) → 2 ^ i ≤ r.1

/-- No part is chosen that is larger than an array part may be. -/
theorem Chosen.le_maxArraySize {ns : List Nat} {r : Nat × Nat} (h : Chosen ns sliceCount r) :
    r.1 ≤ Table.maxArraySize := by
  rcases h.size with hr | ⟨-, i, hi, hr⟩
  · rw [hr]
    exact Nat.zero_le _
  · rw [sliceCount] at hi
    rw [hr, Table.maxArraySize, Nat.one_shiftLeft]
    exact Nat.pow_le_pow_right (by omega) (by omega)

theorem dense_pow_iff {ns : List Nat} {i : Nat} :
    Dense ns (2 ^ i) ↔ 2 ^ i / 2 < below ns (i + 1) := by
  rw [Dense, below_succ_eq]

theorem half_pow_le {i j : Nat} (hij : i ≤ j) : 2 ^ i / 2 ≤ 2 ^ j / 2 :=
  Nat.div_le_div_right (Nat.pow_le_pow_right (by omega) hij)

/-- Larger sizes of which not more than half is in use do not change the choice. -/
theorem Chosen.extend {ns : List Nat} {j j' : Nat} {r : Nat × Nat} (h : Chosen ns j r)
    (hj : j ≤ j') (hsparse : ns.Nodup → ∀ i, j ≤ i → ¬Dense ns (2 ^ i)) : Chosen ns j' r where
  size := h.size.imp_right fun ⟨hdense, i, hi, hr⟩ => ⟨hdense, i, hi.trans_le hj, hr⟩
  inside := h.inside
  largest hnodup i _ hdense := by
    rcases Nat.lt_or_ge i j with hlt | hge
    · exact h.largest hnodup i hlt hdense
    · exact absurd hdense (hsparse hnodup i hge)

/-- The next slice either makes a larger part worthwhile or leaves the choice. -/
theorem Chosen.step {ns : List Nat} {j : Nat} {r : Nat × Nat} (h : Chosen ns j r)
    (hpos : ∀ n ∈ ns, 1 ≤ n) :
    Chosen ns (j + 1)
      (if 0 < (ns.countP fun n => sliceOf n == j) ∧ 2 ^ j / 2 < below ns (j + 1) then
        (2 ^ j, below ns (j + 1)) else r) := by
  split_ifs with hn
  · exact {
      size := .inr ⟨dense_pow_iff.2 hn.2, j, Nat.lt_succ_self j, rfl⟩
      inside := below_succ_eq ns j
      largest := fun _ i hi _ => Nat.pow_le_pow_right (by omega) (Nat.lt_succ_iff.1 hi) }
  · refine ⟨h.size.imp_right fun ⟨hdense, i, hi, hr⟩ => ⟨hdense, i, by omega, hr⟩, h.inside,
      fun hnodup i hi hdense => ?_⟩
    rcases Nat.lt_succ_iff_lt_or_eq.1 hi with hlt | rfl
    · exact h.largest hnodup i hlt hdense
    · -- an empty slice cannot make up for the first half
      have hle := below_le hpos hnodup i
      have hsucc := below_succ ns i
      rw [dense_pow_iff] at hdense
      omega

theorem chosen_chooseFrom {ns : List Nat} (hpos : ∀ n ∈ ns, 1 ≤ n) (m j : Nat) {best : Nat × Nat}
    (hbest : Chosen ns j best) :
    Chosen ns (j + m) (chooseFrom ns.length (2 ^ j) (below ns j) best
      ((List.range' j m).map fun i => ns.countP fun n => sliceOf n == i)) := by
  induction m generalizing j best with
  | zero => exact hbest
  | succ m ih =>
    have hstep := hbest.step hpos
    rw [List.range'_succ, List.map_cons, chooseFrom]
    dsimp only
    rw [← below_succ, ← Nat.pow_succ']
    generalize (if 0 < (ns.countP fun n => sliceOf n == j) ∧ 2 ^ j / 2 < below ns (j + 1) then
      (2 ^ j, below ns (j + 1)) else best) = best' at hstep ⊢
    split_ifs with hfew hall
    · -- all keys together would not fill half of the part
      refine hbest.extend (Nat.le_add_right ..) fun _ i hi hdense => ?_
      have hle := below_le_length ns (i + 1)
      have hhalf := half_pow_le hi
      rw [dense_pow_iff] at hdense
      omega
    · -- all keys are in the slices so far, which make up half of any larger part
      refine hstep.extend (by omega) fun hnodup i hi hdense => ?_
      have hle := below_le_length ns (i + 1)
      have hlast := below_le hpos hnodup (j + 1)
      have hhalf := half_pow_le hi
      rw [dense_pow_iff] at hdense
      omega
    · rw [show j + (m + 1) = j + 1 + m by omega]
      exact ih (j + 1) hstep

theorem chosen_choose (ks : List Value) :
    Chosen (ks.filterMap Table.arrayCandidate?) sliceCount (ofKeys ks).choose := by
  have hpos : ∀ n ∈ ks.filterMap Table.arrayCandidate?, 1 ≤ n := fun n hn => by
    obtain ⟨k, -, hk⟩ := List.mem_filterMap.1 hn
    exact (Table.arrayCandidate?_eq_some_iff.1 hk).1.1
  have hnone : Chosen (ks.filterMap Table.arrayCandidate?) 0 (0, 0) := by
    refine ⟨.inl rfl, ?_, fun _ i hi => absurd hi (Nat.not_lt_zero i)⟩
    refine (List.countP_eq_zero.2 fun n hn => ?_).symm
    have := hpos n hn
    simp only [decide_eq_true_eq]
    omega
  have hchosen := chosen_chooseFrom hpos sliceCount 0 hnone
  have hzero : below (ks.filterMap Table.arrayCandidate?) 0 = 0 := by simp [below]
  rw [hzero, Nat.zero_add] at hchosen
  rw [choose, ofKeys, List.range_eq_range']
  exact hchosen

end Census

namespace Table

variable {h : SeededHash} {t : Table}

def arrayKeys (t : Table) : List Nat :=
  ((List.range' 0 t.array.size).filter fun i => !(t.array.getD i .nil).isNil).map (· + 1)

theorem filterMap_displaced (ht : t.array.size ≤ maxArraySize) :
    ((t.displaced 0).map Prod.fst).filterMap arrayCandidate? = t.arrayKeys := by
  rw [displaced_eq, arrayKeys, Nat.sub_zero, List.map_filterMap, List.filterMap_filterMap,
    ← List.filterMap_eq_map, List.filterMap_filter]
  refine List.filterMap_congr fun i hi => ?_
  have hlt : i < t.array.size := by simpa using hi
  have hkey : arrayCandidate? (.integer (i + 1)) = some (i + 1) :=
    arrayCandidate?_eq_some_iff.2 ⟨by omega, toInteger?_index (hlt.trans_le ht)⟩
  rw [arrayItem?, Value.present?]
  cases (t.array.getD i .nil).isNil
  · exact hkey
  · rfl

theorem le_of_mem_arrayKeys {n : Nat} (hn : n ∈ t.arrayKeys) : 1 ≤ n ∧ n ≤ t.array.size := by
  obtain ⟨i, hi, rfl⟩ := List.mem_map.1 hn
  have hlt := List.mem_range'_1.1 (List.mem_filter.1 hi).1
  omega

theorem usedBetween_eq {low high : Nat} (hlow : low ≤ high) (hhigh : high ≤ t.array.size) :
    t.usedBetween low high = t.arrayKeys.countP fun n => decide (low < n ∧ n ≤ high) := by
  have hcells : (t.array.extract low high).toList =
      (List.range' low (high - low)).map fun i => t.array.getD i .nil := by
    refine List.ext_getElem (by simp; omega) fun i hi _ => ?_
    rw [Array.length_toList, Array.size_extract] at hi
    simp [Array.getElem?_eq_getElem (show low + i < t.array.size by omega)]
  -- the cells before and after do not count
  have hnone : ∀ m k, m + k ≤ low ∨ high ≤ m → (List.range' m k).countP (fun i =>
      decide (low < i + 1 ∧ i + 1 ≤ high) && !(t.array.getD i .nil).isNil) = 0 := fun m k hmk => by
    refine List.countP_eq_zero.2 fun i hi => ?_
    rw [List.mem_range'_1] at hi
    simp only [Bool.and_eq_true, decide_eq_true_eq]
    omega
  have hsplit := List.range'_append_1 (s := 0) (m := low) (n := t.array.size - low)
  have hsplit' := List.range'_append_1 (s := low) (m := high - low) (n := t.array.size - high)
  rw [Nat.zero_add, Nat.add_sub_cancel' (hlow.trans hhigh)] at hsplit
  rw [Nat.add_sub_cancel' hlow,
    show high - low + (t.array.size - high) = t.array.size - low by omega] at hsplit'
  rw [usedBetween, ← Array.countP_toList, hcells, List.countP_map, arrayKeys, List.countP_map,
    List.countP_filter, ← hsplit, ← hsplit', List.countP_append, List.countP_append]
  simp only [Function.comp_apply]
  rw [hnone 0 low (.inl (by omega)), hnone high _ (.inr le_rfl), Nat.zero_add, Nat.add_zero]
  refine List.countP_congr fun i hi => ?_
  rw [List.mem_range'_1] at hi
  rw [decide_eq_true (by omega), Bool.true_and]
  rfl

/-- The slices from `j` on, of which there are `m`. -/
theorem sliceArray_eq (t : Table) (m j : Nat) :
    t.sliceArray (min (2 ^ j / 2) t.array.size) (2 ^ j) (List.replicate m 0) =
      ((List.range' j m).map fun i => t.arrayKeys.countP fun n => Census.sliceOf n == i,
        Census.below t.arrayKeys (j + m) - Census.below t.arrayKeys j) := by
  induction m generalizing j with
  | zero => rw [Nat.add_zero, Nat.sub_self]; rfl
  | succ m ih =>
    have hpos := Nat.two_pow_pos j
    rw [List.replicate_succ, sliceArray]
    split_ifs with hend
    · -- the array part ends before the slice
      have hless : ∀ n ∈ t.arrayKeys, Census.sliceOf n < j := fun n hn => by
        have hle := le_of_mem_arrayKeys hn
        rw [Census.sliceOf_lt_iff hle.1]
        omega
      have hall : ∀ i, j ≤ i → Census.below t.arrayKeys i = t.arrayKeys.length := fun i hi =>
        List.countP_eq_length.2 fun n hn => decide_eq_true ((hless n hn).trans_le hi)
      have hnone : ∀ i ∈ List.range' j (m + 1),
          (t.arrayKeys.countP fun n => Census.sliceOf n == i) = 0 := fun i hi =>
        List.countP_eq_zero.2 fun n hn => by
          have hlt := hless n hn
          rw [List.mem_range'_1] at hi
          rw [beq_iff_eq]
          omega
      rw [List.map_congr_left hnone, List.map_const', List.length_range', hall j le_rfl,
        hall (j + (m + 1)) (Nat.le_add_right ..), Nat.sub_self, List.replicate_succ]
    · have hused : t.usedBetween (min (2 ^ j / 2) t.array.size) (min (2 ^ j) t.array.size) =
          t.arrayKeys.countP fun n => Census.sliceOf n == j := by
        rw [usedBetween_eq (by omega) (Nat.min_le_right ..)]
        refine List.countP_congr fun n hn => ?_
        have hle := le_of_mem_arrayKeys hn
        have hlt := Census.sliceOf_lt_iff (j := j) hle.1
        have hle' := Census.sliceOf_le_iff (n := n) (j := j)
        rw [decide_eq_true_eq, beq_iff_eq]
        omega
      have hhigh : min (2 ^ j) t.array.size = min (2 ^ (j + 1) / 2) t.array.size := by
        rw [Nat.pow_succ, Nat.mul_div_cancel _ Nat.two_pos]
      have hsucc := Census.below_succ t.arrayKeys j
      have hmono := Census.below_mono t.arrayKeys (Nat.le_add_right (j + 1) m)
      dsimp only
      rw [hused, hhigh, ← Nat.pow_succ', ih, List.range'_succ, List.map_cons, Nat.zero_add,
        show j + (m + 1) = j + 1 + m by omega]
      refine Prod.ext rfl ?_
      dsimp only
      omega

theorem arrayCensus_eq (ht : t.array.size ≤ maxArraySize) :
    t.arrayCensus = Census.ofKeys ((t.displaced 0).map Prod.fst) := by
  have hslices := t.sliceArray_eq Census.sliceCount 0
  have hall : Census.below t.arrayKeys Census.sliceCount = t.arrayKeys.length :=
    List.countP_eq_length.2 fun n hn =>
      decide_eq_true (Census.sliceOf_lt_sliceCount ((le_of_mem_arrayKeys hn).2.trans ht))
  have hnone : Census.below t.arrayKeys 0 = 0 := by simp [Census.below]
  have hlength : ((t.displaced 0).map Prod.fst).length = t.arrayKeys.length := by
    rw [List.length_map, displaced_eq, Nat.sub_zero, List.length_filterMap_eq_countP, arrayKeys,
      List.length_map, ← List.countP_eq_length_filter]
    exact List.countP_congr fun i _ => by rw [isSome_arrayItem?]
  rw [Nat.zero_add, hall, hnone, Nat.sub_zero, Nat.pow_zero, Nat.zero_min] at hslices
  rw [arrayCensus, hslices, Census.ofKeys, filterMap_displaced ht, hlength, List.range_eq_range']

/-- The keys of the present entries of the hash part, whatever their order. -/
theorem Valid.perm_liveKeys (hv : Valid h t) :
    ((t.slots.toList.filter Slot.isLive).map Slot.key).Perm (t.slotEntries.map Prod.fst) := by
  have hslots : t.slots.toList = (List.range t.slots.size).map t.slot := by
    refine List.ext_getElem (by simp) fun i hi _ => ?_
    rw [Array.length_toList] at hi
    simp [slot, hi]
  have hitems : ((List.range t.slots.size).filter fun i => !(t.slot i).isFree).filterMap
      t.slotItem? = (List.range t.slots.size).filterMap t.slotItem? := by
    rw [List.filterMap_filter]
    refine List.filterMap_congr fun i _ => ?_
    cases hfree : (t.slot i).isFree with
    | false => rfl
    | true =>
      rw [slotItem?, hv.chained.blank i (not_used.2 hfree)]
      rfl
  have hperm := (hv.perm_used.filterMap t.slotItem?).map Prod.fst
  rw [hitems] at hperm
  refine (List.Perm.of_eq ?_).trans hperm.symm
  rw [hslots, List.filter_map, List.map_map, List.map_filterMap, ← List.filterMap_eq_map,
    List.filterMap_filter]
  refine List.filterMap_congr fun i _ => ?_
  rw [slotItem?, Function.comp_apply]
  cases (t.slot i).isLive <;> rfl

/-- The census is that of the keys of all entries and the one to be added. -/
theorem Valid.census_eq (hv : Valid h t) (k : Value) :
    t.census k = Census.ofKeys (t.contents.map Prod.fst ++ [k]) := by
  have hkeys := (hv.perm_liveKeys.append_left ((t.displaced 0).map Prod.fst)).append_right [k]
  rw [census, ← Array.foldl_toList, ← List.foldl_filter, ← List.foldl_map,
    arrayCensus_eq hv.array_size, Census.foldl_add, Census.add_ofKeys, Census.ofKeys_perm hkeys,
    contents, List.map_append]

end Table

end LuaData
