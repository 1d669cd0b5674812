import LuaData.Proofs.Table.Growth
import LuaData.Proofs.Table.Walk

namespace LuaData.Table

open Ledger

variable {h : SeededHash} {s : History} {t t' : Table} {k : Value} {c : Collector}

def inUse (h : StringHash) (t : Table) (k : Value) (n : Nat) : Bool :=
  decide (1 ≤ n ∧ n ≤ maxArraySize) &&
    (t.present h (.integer n) || k.toInteger? == some (n : Int))

/-- The powers of two that an array part may have for its size, more than half of it in use. -/
def worthwhile (h : StringHash) (t : Table) (k : Value) : Set Nat :=
  {a | (∃ i, a = 2 ^ i) ∧ a ≤ maxArraySize ∧ a < 2 * (List.range' 1 a).countP (t.inUse h k)}

/-- The number of present entries, and of the key `k`, without a place in an array part of `a`
cells. -/
def leftover (h : StringHash) (t : Table) (k : Value) (a : Nat) : Nat :=
  (t.entries h).countP (fun e => !inArray a e.1) + if inArray a k then 0 else 1

structure Fitted (h : StringHash) (t : Table) (k : Value) (t' : Table) : Prop where
  array_size : IsGreatest (insert 0 (t.worthwhile h k)) t'.array.size
  housed : ∀ n, t.inUse h k n = true → n ≤ t'.array.size →
    t'.cell? h (.integer n) = some (.array (n - 1)) ∧
      (t'.read (.array (n - 1))).present? = (t.get h (.integer n)).1
  slots_size : if t.leftover h k t'.array.size = 0 then t'.slots.size = 0
    else IsLeast {p | t.leftover h k t'.array.size ≤ p ∧ ∃ m, p = 2 ^ m} t'.slots.size

theorem toInteger?_eq_iff {n : Nat} (hn : 1 ≤ n ∧ n ≤ maxArraySize) :
    k.toInteger? = some (n : Int) ↔ k.equal (.integer n) = true := by
  constructor
  · intro hk
    rw [Value.eq_integer hk (by omega)]
    exact (Value.isKey_integer _).equal_self
  · intro hk
    rw [maxArraySize] at hn
    rw [Value.toInteger?_congr hk, Value.toInteger?_integer (by omega)]

theorem Valid.mem_candidates (hv : Valid h t) (k : Value) (n : Nat) :
    n ∈ (t.contents.map Prod.fst ++ [k]).filterMap arrayCandidate? ↔ t.inUse h k n = true := by
  simp only [inUse, Bool.and_eq_true, decide_eq_true_eq, Bool.or_eq_true, beq_iff_eq, present,
    hv.present_iff, List.mem_filterMap, List.mem_append, List.mem_map, List.mem_singleton,
    arrayCandidate?_eq_some_iff]
  constructor
  · rintro ⟨_, ⟨e, he, rfl⟩ | rfl, hn, hint⟩
    · exact ⟨hn, .inl ⟨e, he, (toInteger?_eq_iff hn).1 hint⟩⟩
    · exact ⟨hn, .inr hint⟩
  · rintro ⟨hn, ⟨e, he, hek⟩ | hint⟩
    · exact ⟨e.1, .inl ⟨e, he, rfl⟩, hn, (toInteger?_eq_iff hn).2 hek⟩
    · exact ⟨k, .inr rfl, hn, hint⟩

theorem nodup_candidates {ks : List Value} (hks : ks.Pairwise fun a b => a.equal b = false) :
    (ks.filterMap arrayCandidate?).Nodup := by
  refine List.pairwise_filterMap.2 (hks.imp fun {a b} hab m hm n hn => ?_)
  rintro rfl
  rw [arrayCandidate?_eq_some_iff] at hm hn
  rw [Value.eq_integer hm.2 (by omega), Value.eq_integer hn.2 (by omega),
    (Value.isKey_integer _).equal_self] at hab
  cases hab

theorem Valid.nodup_candidates (hv : Valid h t) (hno : ∀ cell, ¬t.Keyed cell k) :
    ((t.contents.map Prod.fst ++ [k]).filterMap arrayCandidate?).Nodup := by
  apply Table.nodup_candidates
  refine List.pairwise_append.2 ⟨List.pairwise_map.2 hv.proper_contents.distinct,
    List.pairwise_singleton _ _, fun a ha b hb => ?_⟩
  obtain ⟨e, he, rfl⟩ := List.mem_map.1 ha
  rw [List.mem_singleton.1 hb, Bool.eq_false_iff]
  intro hek
  obtain ⟨cell, hcell, -⟩ := hv.holds_contents.1 ⟨e, he, hek, rfl⟩
  exact hno cell hcell

theorem Valid.countP_inUse (hv : Valid h t) (hno : ∀ cell, ¬t.Keyed cell k) (a : Nat) :
    ((t.contents.map Prod.fst ++ [k]).filterMap arrayCandidate?).countP (fun n => decide (n ≤ a)) =
      (List.range' 1 a).countP (t.inUse h k) := by
  rw [List.countP_eq_length_filter, List.countP_eq_length_filter]
  refine List.Perm.length_eq ((List.perm_ext_iff_of_nodup ((hv.nodup_candidates hno).filter _)
    (List.Nodup.filter _ List.nodup_range')).2 fun n => ?_)
  rw [List.mem_filter, List.mem_filter, hv.mem_candidates, List.mem_range'_1, decide_eq_true_eq]
  constructor
  · rintro ⟨hn, hle⟩
    have hpos := hn
    simp only [inUse, Bool.and_eq_true, decide_eq_true_eq] at hpos
    exact ⟨by omega, hn⟩
  · rintro ⟨hrange, hn⟩
    exact ⟨hn, by omega⟩

/-- More than half of a power of two is in use if more keys are than its half, rounded down. -/
theorem Valid.dense_iff (hv : Valid h t) (hno : ∀ cell, ¬t.Keyed cell k) (i : Nat) :
    Census.Dense ((t.contents.map Prod.fst ++ [k]).filterMap arrayCandidate?) (2 ^ i) ↔
      2 ^ i < 2 * (List.range' 1 (2 ^ i)).countP (t.inUse h k) := by
  rw [Census.Dense, hv.countP_inUse hno]
  cases i with
  | zero =>
    rw [Nat.pow_zero]
    omega
  | succ i =>
    rw [Nat.pow_succ]
    omega

theorem Valid.isGreatest_chosen (hv : Valid h t) (hno : ∀ cell, ¬t.Keyed cell k) {r : Nat × Nat}
    (hr : Census.Chosen ((t.contents.map Prod.fst ++ [k]).filterMap arrayCandidate?)
      Census.sliceCount r) :
    IsGreatest (insert 0 (t.worthwhile h k)) r.1 := by
  constructor
  · rcases hr.size with hzero | ⟨hdense, i, hi, hpow⟩
    · exact .inl hzero
    · refine .inr ⟨⟨i, hpow⟩, hr.le_maxArraySize, ?_⟩
      rw [hpow] at hdense ⊢
      exact (hv.dense_iff hno i).1 hdense
  · rintro b (rfl | ⟨⟨i, rfl⟩, hle, hhalf⟩)
    · exact Nat.zero_le _
    · rw [maxArraySize, Nat.one_shiftLeft] at hle
      have hi : i ≤ 26 := (Nat.pow_le_pow_iff_right (by omega)).1 hle
      exact hr.largest (hv.nodup_candidates hno) i (Nat.lt_succ_of_le hi)
        ((hv.dense_iff hno i).2 hhalf)

theorem Valid.leftover_eq (hv : Valid h t) (k : Value) {a : Nat} (ha : a ≤ maxArraySize) :
    t.leftover h k a = t.overflowCount a + if inArray a k then 0 else 1 := by
  rw [leftover, hv.entries_eq, countP_contents hv.array_size ha]

theorem Reshaped.housed {a n m : Nat} (hr : Reshaped h t a m t') (hv' : Valid h t') (hn : 1 ≤ n)
    (hle : n ≤ a) : t'.cell? h (.integer n) = some (.array (n - 1)) ∧
      (t'.read (.array (n - 1))).present? = (t.get h (.integer n)).1 := by
  have hkeyed := keyed_array hn (hle.trans_eq hr.array_size.symm)
  exact ⟨hv'.cell?_eq_some_iff.2 hkeyed, by rw [← hv'.get_of_keyed hkeyed, hr.get_eq]⟩

theorem Valid.fitted_rehash (hv : Valid h t) (hno : ∀ cell, ¬t.Keyed cell k)
    (hok : (t.rehash h c k).result = .ok ()) : Fitted h t k (t.rehash h c k).table := by
  have hchosen := Census.chosen_choose (t.contents.map Prod.fst ++ [k])
  rw [← hv.census_eq] at hchosen
  obtain ⟨ha, hhash⟩ := hv.used_sub_choose k
  unfold rehash at hok ⊢
  dsimp only at hok ⊢
  generalize (t.census k).choose = r at *
  rw [← hv.leftover_eq k ha] at hhash
  have hover : t.overflowCount r.1 ≤ t.leftover h k r.1 := by
    rw [hv.leftover_eq k ha]
    exact Nat.le_add_right ..
  have hr := hv.reshaped_rebuild ha hover
  have hv' := (hv.resized_rebuild ha (capacity_eq _) (hover.trans (le_capacity _))).valid
  rw [table_resize hok, Nat.min_eq_left ha, hhash, Nat.max_eq_left hover]
  constructor
  case array_size =>
    rw [hr.array_size]
    exact hv.isGreatest_chosen hno hchosen
  case housed =>
    intro n hn hle
    simp only [inUse, Bool.and_eq_true, decide_eq_true_eq] at hn
    exact hr.housed hv' hn.1.1 (hr.array_size ▸ hle)
  case slots_size =>
    rw [hr.array_size]
    exact hr.slots_size

theorem Fitted.of_mark (hv : Valid h t) {n : Nat} (hv' : Valid h (t.mark n))
    (hf : Fitted h (t.mark n) k t') : Fitted h t k t' := by
  have hpresent : (t.mark n).present h = t.present h := by
    funext q
    rw [present, present, get_mark]
  have hentries : (t.mark n).entries h = t.entries h := by
    rw [hv'.entries_eq, hv.entries_eq]
    exact contents_congr rfl rfl rfl
  have huse : (t.mark n).inUse h k = t.inUse h k := by
    funext m
    rw [inUse, inUse, hpresent]
  constructor
  case array_size =>
    have hsize := hf.array_size
    rwa [worthwhile, huse] at hsize
  case housed =>
    intro m hm hle
    have hhoused := hf.housed m (huse ▸ hm) hle
    rwa [get_mark] at hhoused
  case slots_size =>
    have hsize := hf.slots_size
    rwa [leftover, hentries] at hsize

/-- If a key without a cell is to have one and there is no place for it, and the rehash that makes
one is granted, then the array part gets the largest size, a power of two, of which more than half
is in use, the new key counted. All integer keys up to that size have their cells there, and the
hash part is no larger than it has to be for all others. The new key then has a cell without another
change of the sizes. -/
theorem Reachable.fitted_of_rehash (hs : Reachable h s) (c : Collector) (hk : k.IsKey)
    (hno : ∀ cell, ¬s.table.Keyed cell k) (hc : Cramped h s.table k)
    (hok : ((s.table.mark 0).rehash h c k).result = .ok ()) :
    let t := ((s.table.mark 0).rehash h c k).table
    let o := s.table.cellFor h c k
    Fitted h s.table k t ∧ o.table.array.size = t.array.size ∧ o.table.slots.size = t.slots.size ∧
      ∃ cell, o.result = .ok cell ∧ o.table.Keyed cell k := by
  intro t o
  have hv := hs.sound.valid
  have hins := (hv.insert?_eq_none_iff k).2 hc
  have hv₀ : Valid h (s.table.mark 0) := hv.exhausted (hv.full_of_insert?_eq_none hins)
  refine ⟨.of_mark hv hv₀ (hv₀.fitted_rehash hno hok), ?_⟩
  have ho : o = s.table.create h c k := by
    rw [show o = s.table.cellFor h c k from rfl, cellFor, Value.keyError?_eq_none_iff.2 hk,
      hv.cell?_eq_none_iff.2 hno]
  have ht : t = ((s.table.mark 0).rehash h c k).table := rfl
  rcases hv.create_of_full hk hins c with ⟨e, c', hr, -⟩ |
    ⟨t₁, c₁, a, n, hr, -, ⟨cell, hcell, hcreate⟩ | ⟨i, t₂, -, hi, hcreate⟩⟩
  · cases hok.symm.trans (congrArg Outcome.result hr)
  · rw [ho, hcreate, ht, show (s.table.mark 0).rehash h c k = _ from hr]
    exact ⟨by rw [array_touch], by rw [slots_touch], cell, rfl, (keyed_touch ..).2 hcell⟩
  · rw [ho, hcreate, ht, show (s.table.mark 0).rehash h c k = _ from hr]
    exact ⟨congrArg Array.size hi.array, hi.size, .slot i, rfl, hi.keyed hk⟩

/-- Room for three integer keys, of which the third is missing, and one slot, which is taken. -/
def pitted : History :=
  let c := Collector.new 0 1000
  (History.start .ofContent c 3 1).run .ofContent
    [(.setInt 1 (.boolean true), c), (.setInt 2 (.boolean true), c),
      (.set (.boolean true) (.boolean true), c)]

theorem reachable_pitted : Reachable .ofContent pitted :=
  .step _ _ (.step _ _ (.step _ _ (.start (by rfl))))

/-- With the fourth integer key more than half of four cells are in use. -/
theorem fitted_of_rehash_pitted :
    let c := Collector.new 0 1000
    let t := ((pitted.table.mark 0).rehash .ofContent c (.integer 4)).table
    Fitted .ofContent pitted.table (.integer 4) t ∧ pitted.table.array.size = 3 ∧
      t.array.size = 4 ∧ t.slots.size = 1 ∧
      ∃ cell, (pitted.table.cellFor .ofContent c (.integer 4)).result = .ok cell := by
  intro c t
  have hno : ∀ cell, ¬pitted.table.Keyed cell (.integer 4) :=
    reachable_pitted.sound.valid.cell?_eq_none_iff.1 (by decide +kernel)
  have hcramped : Cramped .ofContent pitted.table (.integer 4) :=
    (reachable_pitted.sound.valid.insert?_eq_none_iff _).1 (by decide +kernel)
  have hok : ((pitted.table.mark 0).rehash .ofContent c (.integer 4)).result = .ok () := by
    decide +kernel
  obtain ⟨hfitted, -, -, cell, hcell, -⟩ :=
    reachable_pitted.fitted_of_rehash c (Value.isKey_integer 4) hno hcramped hok
  exact ⟨hfitted, by decide +kernel, by decide +kernel, by decide +kernel, cell, hcell⟩

end LuaData.Table
