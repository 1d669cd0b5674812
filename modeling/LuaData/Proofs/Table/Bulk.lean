import LuaData.Proofs.Collector
import LuaData.Proofs.Table.Update
import LuaData.Table.Bulk

namespace LuaData.Table

open Ledger

variable {h : SeededHash} {t t' : Table} {k v : Value} {c : Collector}

def run (first : Int) (values : List Value) : List (Value × Value) :=
  values.mapIdx fun i v => (.integer (first + i), v)

@[simp] theorem run_nil (first : Int) : run first [] = [] := rfl

theorem run_cons (first : Int) (v : Value) (vs : List Value) :
    run first (v :: vs) = (.integer first, v) :: run (first + 1) vs := by
  have hzero : first + (0 : Nat) = first := by omega
  have hshift : ∀ i : Nat, first + (i + 1 : Nat) = first + 1 + i := fun i => by omega
  simp only [run, List.mapIdx_cons, hshift, hzero]

theorem run_append (first : Int) (us vs : List Value) :
    run first (us ++ vs) = run first us ++ run (first + us.length) vs := by
  induction us generalizing first with
  | nil => simp
  | cons u us ih =>
    rw [List.cons_append, run_cons, run_cons, ih, List.length_cons, List.cons_append,
      show first + 1 + us.length = first + (us.length + 1 : Nat) by omega]

theorem isKey_run {first : Int} {values : List Value} {e : Value × Value}
    (he : e ∈ run first values) : e.1.IsKey := by
  obtain ⟨i, -, rfl⟩ := List.mem_mapIdx.1 he
  exact Value.isKey_integer _

theorem Valid.length_touch (hv : Valid h t) {cell : Cell} (hc : t.HasCell cell) :
    (t.touch cell).order.toList.length = t.order.toList.length := by
  cases cell with
  | array i => rfl
  | slot i =>
    rw [Table.touch]
    split_ifs
    · rfl
    · have hmem := (hv.member i).2 hc
      have hpos := List.length_pos_of_mem hmem
      have hlist : (t.moveToEnd i).order.toList = t.order.toList.erase i ++ [i] :=
        (hv.threads_moveToEnd (Used.lt_size hc)).toList_eq
      rw [hlist, List.length_append, List.length_erase_of_mem hmem, List.length_singleton]
      omega

theorem Valid.insert?_ne_none_of_lt (hv : Valid h t)
    (hroom : t.order.toList.length < t.slots.size) : t.insert? h k ≠ none :=
  fun hins => hroom.ne (hv.full_of_insert?_eq_none hins)

/-- Where a missing key has a place a store succeeds. It asks for nothing and takes at most one
slot. -/
theorem Valid.set_ok (hv : Valid h t) (c : Collector) (hk : k.IsKey) (v : Value)
    (hplace : t.cell? h k = none → v.isNil = false → t.insert? h k ≠ none) :
    ∃ t' c', t.set h c k v = ⟨.ok (), t', c'⟩ ∧ c.Requested c' [] ∧
      t'.array.size = t.array.size ∧ t'.slots.size = t.slots.size ∧
      t'.order.toList.length ≤ t.order.toList.length + 1 := by
  unfold set
  rw [cellFor, Value.keyError?_eq_none_iff.2 hk]
  cases hcell : t.cell? h k with
  | some cell =>
    have hlen := hv.length_touch (cell?_hasCell hcell)
    refine ⟨_, _, rfl, c.requested_noteStored v, ?_, ?_, ?_⟩
    · rw [array_size_write, array_touch]
    · rw [slots_size_write, slots_touch]
    · rw [order_write]
      omega
  | none =>
    cases hnil : v.isNil with
    | true => exact ⟨t, c, rfl, .refl c, rfl, rfl, Nat.le_succ _⟩
    | false =>
      obtain ⟨⟨i, t₁⟩, hins⟩ := Option.ne_none_iff_exists'.1 (hplace hcell hnil)
      have hi := hv.inserted hk hcell hins
      dsimp only
      rw [create_of_insert? hins]
      refine ⟨_, _, rfl, (c.requested_noteStored k).trans (Collector.requested_noteStored _ v),
        ?_, ?_, ?_⟩
      · rw [array_size_write, hi.array]
      · rw [slots_size_write, hi.size]
      · rw [order_write]
        exact hi.used_le

theorem Valid.setRun_ok (hv : Valid h t) (c : Collector) (n : Nat) (values : List Value)
    (hroom : t.order.toList.length + values.length ≤ t.slots.size) :
    ∃ t' c', t.setRun h c n values = ⟨.ok (), t', c'⟩ ∧ Valid h t' ∧
      Matches t'.contents (t.contents.storeAll (run n values)) := by
  induction values generalizing t c n with
  | nil => exact ⟨t, c, rfl, hv, matches_refl hv.proper_contents⟩
  | cons v vs ih =>
    rw [List.length_cons] at hroom
    obtain ⟨t₁, c₁, hset, -, -, hsize, hused⟩ := hv.set_ok c (Value.isKey_integer n) v
      fun _ _ => hv.insert?_ne_none_of_lt (by omega)
    have hp := hv.performs_set c (.integer n) v
    rw [hset] at hp
    have hv₁ : Valid h t₁ := hp.valid
    obtain ⟨t₂, c₂, hrun, hv₂, hm₂⟩ := ih hv₁ c₁ (n + 1) (by omega)
    refine ⟨t₂, c₂, ?_, hv₂, ?_⟩
    · rw [setRun, setInt, hset]
      exact hrun
    · rw [run_cons]
      exact hm₂.trans ((hp.done () rfl).storeAll fun e he => isKey_run he)

theorem Valid.writeRun (hv : Valid h t) (c : Collector) (i : Nat) (values : List Value)
    (hi : ∀ j < values.length, i + j < t.array.size) :
    Valid h (t.writeRun c i values).1 ∧
      Matches (t.writeRun c i values).1.contents (t.contents.storeAll (run (i + 1) values)) ∧
      (t.writeRun c i values).1.order = t.order ∧
      (t.writeRun c i values).1.slots.size = t.slots.size := by
  induction values generalizing t c i with
  | nil => exact ⟨hv, matches_refl hv.proper_contents, rfl, rfl⟩
  | cons v vs ih =>
    have hcell : t.Keyed (.array i) (.integer (i + 1)) := ⟨hi 0 (by simp), rfl⟩
    obtain ⟨hv', hm, ho, hs⟩ := ih (hv.write hcell.hasCell v) (c.noteStored .table v) (i + 1)
      fun j hj => by
        rw [array_size_write, Nat.add_right_comm]
        exact hi (j + 1) (by simpa using hj)
    rw [Table.writeRun, run_cons]
    refine ⟨hv', ?_, ho.trans (order_write ..), hs.trans (slots_size_write ..)⟩
    exact hm.trans ((hv.matches_write hcell trivial v).storeAll fun e he => isKey_run he)

/-- Once the table has been sized for it, a run is stored as a whole. -/
theorem Valid.storeRun_ok (hv : Valid h t) (c : Collector) {n : Nat} (hn : 1 ≤ n)
    (values : List Value) (hroom : t.order.toList.length +
      (values.length - (t.array.size + 1 - n)) ≤ t.slots.size) :
    ∃ t' c', t.storeRun h c n values = ⟨.ok (), t', c'⟩ ∧ Valid h t' ∧
      Matches t'.contents (t.contents.storeAll (run n values)) := by
  unfold storeRun
  dsimp only
  generalize hinside : t.array.size + 1 - n = inside at *
  obtain ⟨hv₁, hm₁, ho₁, hs₁⟩ := hv.writeRun c (n - 1) (values.take inside)
    fun j hj => by
      rw [List.length_take] at hj
      omega
  have hfirst : ((n - 1 : Nat) : Int) + 1 = n := by omega
  rw [hfirst] at hm₁
  generalize t.writeRun c (n - 1) (values.take inside) = r at *
  obtain ⟨t₁, c₁⟩ := r
  dsimp only at *
  obtain ⟨t₂, c₂, hrun, hv₂, hm₂⟩ := hv₁.setRun_ok c₁ (n + inside) (values.drop inside) (by
    rw [ho₁, hs₁, List.length_drop]
    exact hroom)
  refine ⟨t₂, c₂, hrun, hv₂, ?_⟩
  -- the run is that of the array part followed by that of the hash part
  have hsplit : run n values =
      run n (values.take inside) ++ run (n + inside : Nat) (values.drop inside) := by
    rcases Nat.lt_or_ge values.length inside with hlt | hge
    · rw [List.drop_of_length_le hlt.le, List.take_of_length_le hlt.le, run_nil, List.append_nil]
    · conv_lhs => rw [← List.take_append_drop inside values]
      rw [run_append, List.length_take, Nat.min_eq_left hge, Int.natCast_add]
  rw [hsplit, storeAll_append]
  exact hm₂.trans (hm₁.storeAll fun e he => isKey_run he)

/-- The hash size asked for has room for `extra` keys beside those in use. -/
theorem Valid.add_le_bulkHashSize (hv : Valid h t) (extra : Nat) :
    t.order.toList.length + extra ≤ t.bulkHashSize extra := by
  have hcount := hv.countP_isFree
  -- no free slot lies at `lastFree` or above
  have hfree : (List.range t.lastFree).countP (fun i => (t.slot i).isFree) =
      (List.range t.slots.size).countP fun i => (t.slot i).isFree := by
    have hsplit := List.range'_append_1 (s := 0) (m := t.lastFree)
      (n := t.slots.size - t.lastFree)
    rw [Nat.zero_add, Nat.add_sub_cancel' hv.lastFree_le] at hsplit
    rw [List.range_eq_range', List.range_eq_range', ← hsplit, List.countP_append,
      left_eq_add, List.countP_eq_zero]
    intro i hi hfree
    rw [List.mem_range'_1] at hi
    exact not_used.2 hfree (hv.full i hi.1 (by omega))
  unfold bulkHashSize
  split_ifs
  · omega
  · omega
  · rw [freeCount_eq, hfree]
    omega

theorem overflowCount_le {a : Nat} (ha : t.array.size ≤ a) :
    t.overflowCount a ≤ t.order.toList.length := by
  have hnil : t.displaced a = [] := by
    rw [displaced_eq, Nat.sub_eq_zero_of_le ha]
    rfl
  rw [overflowCount, hnil, List.length_nil, Nat.zero_add]
  exact (List.length_filter_le _ _).trans (List.length_filterMap_le _ _)

theorem bulkArraySize_bounds (ht : t.array.size ≤ maxArraySize) (first last : Nat) :
    t.array.size ≤ t.bulkArraySize first last ∧ t.bulkArraySize first last ≤ maxArraySize := by
  unfold bulkArraySize
  split_ifs <;> omega

def grown (h : StringHash) (t : Table) (c : Collector) (a n : Nat) : Outcome Unit :=
  if t.array.size < a ∨ t.slots.size < n then t.resize h c a n else ⟨.ok (), t, c⟩

/-- The growth is refused, or there is room for the whole run afterwards. -/
theorem Valid.grown_cases (hv : Valid h t) (c : Collector) {first count a n : Nat}
    (hfirst : 1 ≤ first) (hcount : 0 < count) (ha : a = t.bulkArraySize first (first + count - 1))
    (hn : n = t.bulkHashSize (bulkOverflow a first (first + count - 1))) :
    (∃ e c', t.grown h c a n = ⟨.error e, t, c'⟩ ∧ t.resize h c a n = ⟨.error e, t, c'⟩) ∨
    ∃ t' c', t.grown h c a n = ⟨.ok (), t', c'⟩ ∧ Valid h t' ∧ Matches t'.contents t.contents ∧
      t'.order.toList.length + (count - (t'.array.size + 1 - first)) ≤ t'.slots.size := by
  have hbounds := bulkArraySize_bounds hv.array_size first (first + count - 1)
  rw [← ha] at hbounds
  generalize hextra : bulkOverflow a first (first + count - 1) = extra at hn
  have hrest : count - (a + 1 - first) = extra := by
    rw [← hextra, bulkOverflow]
    split_ifs <;> omega
  have hroom := hv.add_le_bulkHashSize extra
  rw [← hn] at hroom
  unfold grown
  by_cases hgrow : t.array.size < a ∨ t.slots.size < n
  · rw [if_pos hgrow]
    have hr := hv.resize_cases c a n
    rw [Nat.min_eq_left hbounds.2] at hr
    generalize t.resize h c a n = o at hr ⊢
    obtain ⟨r, t₁, c₁⟩ := o
    rcases hr with ⟨e, rfl, rfl⟩ | ⟨rfl, hr⟩
    · exact .inl ⟨e, c₁, rfl, rfl⟩
    · dsimp only at hr
      refine .inr ⟨t₁, c₁, rfl, hr.valid, hr.matches_contents, ?_⟩
      have hover := overflowCount_le hbounds.1
      have hused := hr.used_le
      have hcap := le_capacity (max n (t.overflowCount a))
      rw [hr.array_size, hrest, hr.slots_size]
      omega
  · rw [if_neg hgrow]
    -- the array part is never asked to shrink
    have hsize : t.array.size = a := by omega
    refine .inr ⟨t, c, rfl, hv, matches_refl hv.proper_contents, ?_⟩
    rw [hsize, hrest]
    omega

def grownFor (h : StringHash) (t : Table) (c : Collector) (first count : Nat) : Outcome Unit :=
  let a := t.bulkArraySize first (first + count - 1)
  t.grown h c a (t.bulkHashSize (bulkOverflow a first (first + count - 1)))

theorem Valid.grownFor (hv : Valid h t) (c : Collector) (first count : Nat) :
    Valid h (t.grownFor h c first count).table := by
  unfold Table.grownFor grown
  dsimp only
  split_ifs
  · exact (hv.performs_resize ..).valid
  · exact hv

/-- What a bulk store comes to: it is rejected, has nothing to store, is refused the growth, or
stores the run after the growth. -/
inductive Listed (h : StringHash) (t : Table) (c : Collector) (first : Int) (values : List Value) :
    Outcome Unit → Prop
  | rejected (e : TableError) : Listed h t c first values ⟨.error e, t, c⟩
  | idle (hnil : values = []) : Listed h t c first values ⟨.ok (), t, c⟩
  | refused {e : TableError} {t₁ : Table} {c₁ : Collector} (hfirst : 1 ≤ first.toNat)
      (hlen : 0 < values.length)
      (hgrown : t.grownFor h c first.toNat values.length = ⟨.error e, t₁, c₁⟩) :
      Listed h t c first values ⟨.error e, t₁, c₁⟩
  | stored {t₁ : Table} {c₁ : Collector} (hfirst : 1 ≤ first.toNat) (hlen : 0 < values.length)
      (hgrown : t.grownFor h c first.toNat values.length = ⟨.ok (), t₁, c₁⟩) :
      Listed h t c first values (t₁.storeRun h c₁ first.toNat values)

theorem listed_setList (h : StringHash) (t : Table) (c : Collector) (first : Int)
    (values : List Value) : Listed h t c first values (t.setList h c first values) := by
  unfold setList
  split_ifs with hlow hempty hlast
  · exact .rejected _
  · exact .idle (List.isEmpty_iff.1 hempty)
  · exact .rejected _
  have hfirst : 1 ≤ first.toNat := by omega
  have hlen : 0 < values.length := List.length_pos_iff.2 fun hnil => hempty (by rw [hnil]; rfl)
  rcases hgrown : t.grownFor h c first.toNat values.length with ⟨r, t₁, c₁⟩
  have hif := hgrown
  unfold grownFor grown at hif
  dsimp only at hif ⊢
  rw [hif]
  cases r with
  | error e => exact .refused hfirst hlen hgrown
  | ok _ => exact .stored hfirst hlen hgrown

/-- A bulk store is rejected, refused the growth it needs, or done as a whole. -/
theorem Valid.setList_cases (hv : Valid h t) (c : Collector) (first : Int) (values : List Value) :
    (∃ e, t.setList h c first values = ⟨.error e, t, c⟩) ∨
    (∃ e c' a n, t.setList h c first values = ⟨.error e, t, c'⟩ ∧
      t.resize h c a n = ⟨.error e, t, c'⟩) ∨
    ∃ t' c', t.setList h c first values = ⟨.ok (), t', c'⟩ ∧ Valid h t' ∧
      Matches t'.contents (t.contents.storeAll (run first values)) := by
  have hlisted := listed_setList h t c first values
  generalize t.setList h c first values = o at hlisted ⊢
  cases hlisted with
  | rejected e => exact .inl ⟨e, rfl⟩
  | idle hnil =>
    rw [hnil, run_nil]
    exact .inr (.inr ⟨t, c, rfl, hv, matches_refl hv.proper_contents⟩)
  | @refused e t₁ c₁ hfirst hlen hgrown =>
    obtain ⟨_, _, heq, hresize⟩ | ⟨_, _, heq, -⟩ := hv.grown_cases c hfirst hlen rfl rfl
    · cases heq.symm.trans hgrown
      exact .inr (.inl ⟨e, c₁, _, _, rfl, hresize⟩)
    · cases heq.symm.trans hgrown
  | @stored t₁ c₁ hfirst hlen hgrown =>
    obtain ⟨_, _, heq, -⟩ | ⟨_, _, heq, hv₁, hm₁, hroom⟩ :=
      hv.grown_cases c hfirst hlen rfl rfl
    · cases heq.symm.trans hgrown
    · cases heq.symm.trans hgrown
      obtain ⟨t₂, c₂, hrun, hv₂, hm₂⟩ := hv₁.storeRun_ok c₁ hfirst values hroom
      rw [Int.toNat_of_nonneg (by omega)] at hm₂
      exact .inr (.inr ⟨t₂, c₂, hrun, hv₂, hm₂.trans (hm₁.storeAll fun e he => isKey_run he)⟩)

/-- A bulk store is refused before it has changed anything, or done as a whole. -/
theorem Valid.performs_setList (hv : Valid h t) (c : Collector) (first : Int)
    (values : List Value) : Performs h t (run first values) (t.setList h c first values) := by
  have hsame : Matches t.contents t.contents := matches_refl hv.proper_contents
  rcases hv.setList_cases c first values with
    ⟨e, heq⟩ | ⟨e, c', a, n, heq, -⟩ | ⟨t', c', heq, hv', hm'⟩
  · rw [heq]
    exact hv.performs_error hsame _ e c
  · rw [heq]
    exact hv.performs_error hsame _ e c'
  · rw [heq]
    exact hv'.performs_ok (fun e he => isKey_run he) hm' () c'

end LuaData.Table
