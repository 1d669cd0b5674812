import LuaData.Proofs.Table.Access

namespace LuaData.Table

open Ledger

variable {h : StringHash} {t t' : Table} {k v : Value} {i : Nat}

theorem Threaded.perm_used (ht : Threaded h t) :
    t.order.toList.Perm ((List.range t.slots.size).filter fun i => !(t.slot i).isFree) := by
  refine (List.perm_ext_iff_of_nodup ht.threads.nodup (List.nodup_range.filter _)).2 fun i => ?_
  rw [ht.member, List.mem_filter, List.mem_range, Bool.not_eq_true']
  exact ⟨fun hi => ⟨hi.lt_size, hi⟩, And.right⟩

theorem Threaded.countP_isFree (ht : Threaded h t) :
    (List.range t.slots.size).countP (fun i => (t.slot i).isFree) + t.order.toList.length =
      t.slots.size := by
  have hsplit := (List.range t.slots.size).length_eq_countP_add_countP fun i => (t.slot i).isFree
  rw [ht.perm_used.length_eq, ← List.countP_eq_length_filter]
  simpa using hsplit.symm

theorem Threaded.exists_free (ht : Threaded h t) (hlt : t.order.toList.length < t.slots.size) :
    ∃ i < t.lastFree, ¬t.Used i := by
  have hcount := ht.countP_isFree
  obtain ⟨i, hi, hfree⟩ := List.countP_pos_iff.1
    (show 0 < (List.range t.slots.size).countP fun i => (t.slot i).isFree by omega)
  refine ⟨i, ?_, not_used.2 hfree⟩
  by_contra hge
  exact not_used.2 hfree (ht.full i (Nat.le_of_not_lt hge) (List.mem_range.1 hi))

/-- `t'` is `t` with a cleared entry of the key `k` in slot `i`, as the most recent one. -/
structure Admitted (h : StringHash) (t : Table) (k : Value) (i : Nat) (t' : Table) : Prop where
  threaded : Threaded h t'
  key : (t'.slot i).key = k
  cleared : (t'.slot i).isLive = false
  last : t'.order.toList.getLast? = some i
  array : t'.array = t.array
  size : t'.slots.size = t.slots.size
  slotEntries : t'.slotEntries = t.slotEntries
  /-- The other entries are old ones, though some may have changed places. -/
  moved : ∃ σ : Equiv.Perm Nat, ∀ j, σ j ≠ i → (t'.slot (σ j)).key = (t.slot j).key ∧
    (t'.slot (σ j)).value = (t.slot j).value
  used_le : t'.order.toList.length ≤ t.order.toList.length + 1

structure Inserted (h : StringHash) (t : Table) (k : Value) (i : Nat) (t' : Table) : Prop
    extends Admitted h t k i t' where
  distinct : t'.Distinct

theorem Inserted.valid (hi : Inserted h t k i t') : Valid h t' := ⟨hi.threaded, hi.distinct⟩

theorem Admitted.inserted (ha : Admitted h t k i t') (hd : t.Distinct)
    (hnew : ∀ j, t.Used j → (t.slot j).key.equal k = false) : Inserted h t k i t' := by
  obtain ⟨σ, hσ⟩ := ha.moved
  exact ⟨ha, hd.admit hnew ha.key fun j hj => (hσ j hj).1⟩

theorem Admitted.kept (ha : Admitted h t k i t') (j : Nat) (hj : j ≠ i) (hu : t'.Used j) :
    ∃ x, t.Used x ∧ (t'.slot j).key = (t.slot x).key ∧ (t'.slot j).value = (t.slot x).value := by
  obtain ⟨σ, hσ⟩ := ha.moved
  obtain ⟨x, rfl⟩ := σ.surjective j
  obtain ⟨hkey, hvalue⟩ := hσ x hj
  rw [Used, Slot.isFree, hkey] at hu
  exact ⟨x, hu, hkey, hvalue⟩

theorem Admitted.used (ha : Admitted h t k i t') (hk : k.IsKey) : t'.Used i := by
  rw [Used, Slot.isFree, ha.key]
  exact hk.1

theorem Inserted.contents (hi : Inserted h t k i t') : t'.contents = t.contents := by
  rw [Table.contents, Table.contents, hi.slotEntries, displaced_congr hi.array]

theorem Inserted.keyed (hi : Inserted h t k i t') (hk : k.IsKey) : t'.Keyed (.slot i) k :=
  ⟨hi.used hk, by rw [hi.key, hk.equal_self]⟩

theorem Inserted.ready (hi : Inserted h t k i t') : t'.Ready (.slot i) := fun _ => hi.last

/-- What is stored through the new slot is stored under the key. -/
theorem Inserted.slotEntries_write (hi : Inserted h t k i t') (hk : k.IsKey) (v : Value) :
    (t'.write (.slot i) v).slotEntries = Ledger.store t.slotEntries k v := by
  rw [hi.valid.slotEntries_write_slot (hi.keyed hk).1 hi.ready, hi.key, hi.slotEntries]

/-- Slots have changed places by `σ`, and then the key `k` has come into slot `i`, where no present
entry was. -/
theorem Threaded.admit (ht : Threaded h t) {σ : Equiv.Perm Nat} {o : Order} (hc : Chained h t')
    (ha : t'.array = t.array) (hs : t'.slots.size = t.slots.size) (hi : i < t.slots.size)
    (hkey : k.IsKey) (hk : inArray t.array.size k = false) (hlast : t'.lastFree ≤ t.slots.size)
    (hfull : ∀ j, t'.lastFree ≤ j → j < t.slots.size → j = i ∨ t.Used (σ.symm j))
    (ho : t'.order = o.moveToEnd i) (hlinks : o.links.size = t.order.links.size)
    (hthreads : o.Threads (t.order.toList.map σ)) (hself : (t'.slot i).key = k)
    (hcleared : (t'.slot i).isLive = false) (hold : (t.slot (σ.symm i)).isLive = false)
    (hrest : ∀ j, σ j ≠ i → (t'.slot (σ j)).key = (t.slot j).key ∧
      (t'.slot (σ j)).value = (t.slot j).value) :
    Admitted h t k i t' := by
  have hused : ∀ j, t'.Used (σ j) ↔ σ j = i ∨ t.Used j := fun j => by
    by_cases hj : σ j = i
    · simp [Used, Slot.isFree, hj, hself, hkey.1]
    · simp [Used, Slot.isFree, (hrest j hj).1, hj]
  have hnone := slotItem?_of_not_live hcleared
  have hitem : ∀ j, t'.slotItem? (σ j) = t.slotItem? j := fun j => by
    by_cases hj : σ j = i
    · rw [← hj, σ.symm_apply_apply] at hold
      rw [hj, hnone, slotItem?_of_not_live hold]
    · rw [slotItem?, slotItem?, Slot.isLive, Slot.isLive, (hrest j hj).1, (hrest j hj).2]
  have hthreads' : t'.order.Threads ((t.order.toList.map σ).erase i ++ [i]) := by
    rw [ho]
    exact hthreads.moveToEnd (hlinks ▸ ht.links ▸ hi)
  constructor
  case threaded =>
    constructor
    case array_size => exact ha ▸ ht.array_size
    case lastFree_le => exact hs ▸ hlast
    case chained => exact hc
    case links => rw [ho, Order.size_moveToEnd, hlinks, ht.links, hs]
    case threads => rwa [hthreads'.toList_eq]
    case member =>
      refine σ.surjective.forall.2 fun j => ?_
      rw [hthreads'.toList_eq, hused, List.mem_append, hthreads.nodup.mem_erase_iff,
        List.mem_singleton, List.mem_map_of_injective σ.injective, ht.member]
      by_cases hji : σ j = i <;> simp [hji]
    case apart =>
      refine σ.surjective.forall.2 fun j hj => ?_
      rw [ha]
      by_cases hji : σ j = i
      · rwa [hji, hself]
      · rw [(hrest j hji).1]
        exact ht.apart j (((hused j).1 hj).resolve_left hji)
    case full =>
      intro j hj hlt
      rw [← σ.apply_symm_apply j, hused, σ.apply_symm_apply]
      exact hfull j hj (hs ▸ hlt)
  case key => exact hself
  case cleared => exact hcleared
  case last => rw [hthreads'.toList_eq, List.getLast?_concat]
  case array => exact ha
  case size => exact hs
  case slotEntries =>
    -- slot `i` gives no entry before or after, so its place in the order does not matter
    rw [Table.slotEntries, hthreads'.toList_eq, filterMap_erase_concat hthreads.nodup hnone,
      List.filterMap_map]
    exact List.filterMap_congr fun j _ => hitem j
  case moved => exact ⟨σ, hrest⟩
  case used_le =>
    have hle := List.length_erase_le (a := i) (l := t.order.toList.map σ)
    rw [List.length_map] at hle
    rw [hthreads'.toList_eq, List.length_append, List.length_singleton]
    omega

theorem freeBelow_eq_some {n : Nat} (hf : t.freeBelow n = some i) :
    i < n ∧ ¬t.Used i ∧ ∀ j, i < j → j < n → t.Used j := by
  induction n with
  | zero => cases hf
  | succ n ih =>
    rw [freeBelow] at hf
    split_ifs at hf with hn
    · cases hf
      exact ⟨by omega, not_used.2 hn, fun j _ _ => by omega⟩
    · obtain ⟨h1, h2, h3⟩ := ih hf
      refine ⟨by omega, h2, fun j hj hlt => ?_⟩
      rcases Nat.lt_succ_iff_lt_or_eq.1 hlt with hlt | rfl
      · exact h3 j hj hlt
      · exact (Bool.not_eq_true _).mp hn

theorem Threaded.used_above (ht : Threaded h t) {f : Nat}
    (hf : t.freeBelow t.lastFree = some f) (j : Nat) (hj : f < j) (hlt : j < t.slots.size) :
    t.Used j := by
  rcases Nat.lt_or_ge j t.lastFree with hl | hl
  · exact (freeBelow_eq_some hf).2.2 j hj hl
  · exact ht.full j hl hlt

theorem freeBelow_eq_none_iff {n : Nat} : t.freeBelow n = none ↔ ∀ j < n, t.Used j := by
  induction n with
  | zero => simp [freeBelow]
  | succ n ih =>
    rw [freeBelow]
    split_ifs with hn
    · refine iff_of_false (by simp) fun hall => ?_
      exact not_used.2 hn (hall n (by omega))
    · rw [ih]
      refine ⟨fun hall j hj => ?_, fun hall j hj => hall j (by omega)⟩
      rcases Nat.lt_succ_iff_lt_or_eq.1 hj with hj | rfl
      · exact hall j hj
      · exact (Bool.not_eq_true _).mp hn

theorem slot_occupy (hi : i < t.slots.size) (k : Value) (j : Nat) : (t.occupy i k).slot j =
    if j = i then { t.slot i with key := k } else t.slot j := by
  have hslot : (t.occupy i k).slot j = (t.setSlot i { t.slot i with key := k }).slot j := rfl
  rw [hslot, slot_setSlot]
  by_cases hj : j = i
  · rw [if_pos ⟨hj.symm, hj ▸ hi⟩, if_pos hj]
  · rw [if_neg fun hn => hj hn.1.symm, if_neg hj]

@[simp] theorem size_occupy (t : Table) (i : Nat) (k : Value) :
    (t.occupy i k).slots.size = t.slots.size := size_setSlot ..

theorem slot_setChain (t : Table) (i j : Nat) (n : Option Nat) : (t.setChain i n).slot j =
    if i = j ∧ j < t.slots.size then { t.slot i with chain := n } else t.slot j :=
  slot_setSlot ..

theorem slot_move (t : Table) (i f j : Nat) : (t.move i f).slot j =
    if i = j ∧ j < t.slots.size then {} else if f = j ∧ j < t.slots.size then t.slot i
    else t.slot j := by
  have hslot : (t.move i f).slot j = ((t.setSlot f (t.slot i)).setSlot i {}).slot j := rfl
  rw [hslot, slot_setSlot, slot_setSlot, size_setSlot]

@[simp] theorem size_move (t : Table) (i f : Nat) : (t.move i f).slots.size = t.slots.size := by
  have hsize : (t.move i f).slots.size = ((t.setSlot f (t.slot i)).setSlot i {}).slots.size := rfl
  rw [hsize, size_setSlot, size_setSlot]

theorem Chained.lastFree (hc : Chained h t) (n : Nat) : Chained h { t with lastFree := n } :=
  hc.congr rfl (fun _ => rfl) (fun _ => rfl) (fun _ _ => rfl)

theorem Valid.new_key {h : SeededHash} (hv : Valid h t) (hnew : t.cell? h k = none) :
    inArray t.array.size k = false ∧ ∀ j, t.Used j → (t.slot j).key.equal k = false :=
  ⟨inArray_of_cell?_eq_none hnew, fun j hj =>
    Bool.eq_false_iff.2 fun he => hv.cell?_eq_none_iff.1 hnew (.slot j) ⟨hj, he⟩⟩

theorem Threaded.admitted_home (ht : Threaded h t) (hk : k.IsKey)
    (hout : inArray t.array.size k = false) (hi : i < t.slots.size)
    (hhome : k.mainPosition h t.slots.size = i) (hlive : (t.slot i).isLive = false) :
    Admitted h t k i (t.occupy i k) := by
  have hslot := slot_occupy hi k
  have hself : (t.occupy i k).slot i = { t.slot i with key := k } := by rw [hslot, if_pos rfl]
  refine ht.admit (σ := Equiv.refl Nat) (o := t.order)
    (ht.chained.rekey hk hhome (size_occupy ..) hslot) rfl (size_occupy ..) hi hk hout
    ht.lastFree_le (fun j hj hlt => .inr (ht.full j hj hlt)) rfl rfl (by simpa using ht.threads)
    (by rw [hself]) ?_ hlive ?_
  · rw [hself]
    exact hlive
  · intro j hj
    rw [Equiv.refl_apply] at hj ⊢
    rw [hslot, if_neg hj]
    exact ⟨rfl, rfl⟩

theorem slot_chainedIn (hi : t.Used i) {f : Nat} (hf : t.slot f = {}) (hif : i ≠ f)
    (hlt : f < t.slots.size) (k : Value) (j : Nat) :
    (((t.setChain f (t.slot i).chain).setChain i (some f)).occupy f k).slot j =
      if j = f then { key := k, chain := (t.slot i).chain }
      else if j = i then { t.slot i with chain := some f } else t.slot j := by
  rw [slot_occupy (by simpa using hlt)]
  simp only [size_setChain, slot_setChain]
  by_cases hjf : j = f
  · simp [hjf, hlt, hif, hf]
  · by_cases hji : j = i
    · simp [hji, hif, hif.symm, hi.lt_size]
    · simp [hji, Ne.symm hji, hjf, Ne.symm hjf]

theorem Threaded.admitted_free (ht : Threaded h t) (hk : k.IsKey)
    (hout : inArray t.array.size k = false) (hi : t.Used i)
    (hhome : k.mainPosition h t.slots.size = i) (hii : t.homeOf h i = i) {f : Nat}
    (hf : t.freeBelow t.lastFree = some f) :
    Admitted h t k f ((({ t with lastFree := f }.setChain f (t.slot i).chain).setChain i
      (some f)).occupy f k) := by
  obtain ⟨hfl, hfree, -⟩ := freeBelow_eq_some hf
  have hlt : f < t.slots.size := hfl.trans_le ht.lastFree_le
  have hif : i ≠ f := fun he => hfree (he ▸ hi)
  have hslot := slot_chainedIn (t := { t with lastFree := f }) hi (ht.chained.blank f hfree) hif hlt
    k
  have hsize : ((({ t with lastFree := f }.setChain f (t.slot i).chain).setChain i
      (some f)).occupy f k).slots.size = t.slots.size := by
    rw [size_occupy, size_setChain, size_setChain]
  generalize ht' : (({ t with lastFree := f }.setChain f (t.slot i).chain).setChain i
    (some f)).occupy f k = t' at *
  replace hslot : ∀ j, t'.slot j =
      if j = f then { key := k, chain := (t.slot i).chain }
      else if j = i then { t.slot i with chain := some f } else t.slot j := ht' ▸ hslot
  have hself : t'.slot f = { key := k, chain := (t.slot i).chain } := by rw [hslot, if_pos rfl]
  refine ht.admit (σ := Equiv.refl Nat) (o := t.order)
    (ht.chained.chainIn hi hii hfree hk hhome hsize hslot) (ht' ▸ rfl) hsize hlt hk hout
    (ht' ▸ hlt.le) ?_ (ht' ▸ rfl) rfl (by simpa using ht.threads) (by rw [hself])
    (by rw [hself]; rfl) (ht.chained.isLive_eq_false hfree) ?_
  · intro j hj hjlt
    rw [← ht'] at hj
    rcases eq_or_ne j f with hjf | hjf
    · exact .inl hjf
    · exact .inr (ht.used_above hf j (lt_of_le_of_ne hj hjf.symm) hjlt)
  · intro j hj
    rw [Equiv.refl_apply] at hj ⊢
    rw [hslot, if_neg hj]
    split_ifs with hji
    · rw [hji]
      exact ⟨rfl, rfl⟩
    · exact ⟨rfl, rfl⟩

/-- With its predecessor told of it, a move to a free slot makes the two slots change places. -/
theorem Chained.slot_swap (hc : Chained h t) (hi : t.Used i) {f b : Nat} (hf : ¬t.Used f)
    (hlt : f < t.slots.size) (hb : t.Link b i) (j : Nat) :
    ((t.setChain b (some f)).move i f).slot (Equiv.swap i f j) =
      { t.slot j with chain := (t.slot j).chain.map (Equiv.swap i f) } := by
  have hif : i ≠ f := fun he => hf (he ▸ hi)
  have hbi : b ≠ i := fun he => hc.not_link_self (he ▸ hb)
  have htoF : ∀ x, (t.slot x).chain ≠ some f := fun x hx => hf (hc.target x f hx)
  -- only the link from `b` leads to one of the two slots
  have hfixed : ∀ x, (t.slot x).chain ≠ some i →
      (t.slot x).chain.map (Equiv.swap i f) = (t.slot x).chain := fun x hx => by
    cases hch : (t.slot x).chain with
    | none => rfl
    | some y =>
      have hyi : y ≠ i := fun he => hx (he ▸ hch)
      have hyf : y ≠ f := fun he => htoF x (he ▸ hch)
      rw [Option.map_some, Equiv.swap_apply_of_ne_of_ne hyi hyf]
  rw [slot_move, size_setChain]
  simp only [slot_setChain]
  by_cases hji : j = i
  · subst hji
    rw [Equiv.swap_apply_left, if_neg fun hn => hif hn.1, if_pos ⟨rfl, hlt⟩,
      if_neg fun hn => hbi hn.1, hfixed j hc.not_link_self]
  by_cases hjf : j = f
  · subst hjf
    rw [Equiv.swap_apply_right, if_pos ⟨rfl, hi.lt_size⟩, hc.blank j hf]
    rfl
  rw [Equiv.swap_apply_of_ne_of_ne hji hjf, if_neg fun hn => hji hn.1.symm,
    if_neg fun hn => hjf hn.1.symm]
  by_cases hjb : j = b
  · subst hjb
    rw [if_pos ⟨rfl, (hc.source hb).lt_size⟩, show (t.slot j).chain = some i from hb,
      Option.map_some, Equiv.swap_apply_left]
  · rw [if_neg fun hn => hjb hn.1.symm, hfixed j fun hx => hjb (hc.unshared j b i hx hb)]

theorem Threaded.threads_transplant (ht : Threaded h t) (hi : t.Used i) {f : Nat} (hf : ¬t.Used f)
    (hlt : f < t.slots.size) :
    (t.order.transplant i f).Threads (t.order.toList.map (Equiv.swap i f)) := by
  obtain ⟨xs, ys, hs⟩ := List.append_of_mem ((ht.member i).2 hi)
  have hthreads := hs ▸ ht.threads
  have hni := (List.nodup_middle.1 hthreads.nodup).notMem
  have hnf : f ∉ xs ++ i :: ys := fun hm => hf ((ht.member f).1 (hs ▸ hm))
  have hfixed : ∀ zs : List Nat, i ∉ zs → f ∉ zs → zs.map (Equiv.swap i f) = zs := by
    intro zs hiz hfz
    refine (List.map_congr_left fun z hz => ?_).trans (List.map_id zs)
    have hzi : z ≠ i := fun he => hiz (he ▸ hz)
    have hzf : z ≠ f := fun he => hfz (he ▸ hz)
    exact Equiv.swap_apply_of_ne_of_ne hzi hzf
  have hmap : (xs ++ i :: ys).map (Equiv.swap i f) = xs ++ f :: ys := by
    simp only [List.mem_append, List.mem_cons, not_or] at hni hnf
    rw [List.map_append, List.map_cons, Equiv.swap_apply_left, hfixed xs hni.1 hnf.1,
      hfixed ys hni.2 hnf.2.2]
  rw [hs, hmap]
  exact hthreads.transplant hnf (ht.links ▸ hlt)

theorem Threaded.admitted_swap (ht : Threaded h t) (hk : k.IsKey)
    (hout : inArray t.array.size k = false) (hi : t.Used i)
    (hhome : k.mainPosition h t.slots.size = i) (hii : t.homeOf h i ≠ i) {f b : Nat}
    (hf : t.freeBelow t.lastFree = some f) (hb : t.Link b i) :
    Admitted h t k i
      ((({ t with lastFree := f }.setChain b (some f)).move i f).occupy i k) := by
  obtain ⟨hfl, hfree, -⟩ := freeBelow_eq_some hf
  have hlt : f < t.slots.size := hfl.trans_le ht.lastFree_le
  have hswap := (ht.chained.lastFree f).slot_swap hi hfree hlt hb
  have hsize : (({ t with lastFree := f }.setChain b (some f)).move i f).slots.size =
      t.slots.size := by rw [size_move, size_setChain]
  generalize hm : ({ t with lastFree := f }.setChain b (some f)).move i f = m at *
  have horder : m.order = t.order.transplant i f := hm ▸ rfl
  have hlast : m.lastFree = f := hm ▸ rfl
  have hslot : ∀ j, m.slot (Equiv.swap i f j) =
      { t.slot j with chain := (t.slot j).chain.map (Equiv.swap i f) } := hswap
  have hfreed : m.slot i = {} := by
    have he := hslot f
    rwa [Equiv.swap_apply_right, ht.chained.blank f hfree] at he
  -- the slots have changed places, and slot `i` is free for the key
  have hi' : i < m.slots.size := hsize ▸ hi.lt_size
  have hocc := slot_occupy hi' k
  have hself : (m.occupy i k).slot i = { key := k } := by rw [hocc, if_pos rfl, hfreed]
  have hrest : ∀ j, Equiv.swap i f j ≠ i → (m.occupy i k).slot (Equiv.swap i f j) =
      { t.slot j with chain := (t.slot j).chain.map (Equiv.swap i f) } := fun j hj => by
    rw [hocc, if_neg hj, hslot]
  have hchained : Chained h (m.occupy i k) :=
    (ht.chained.swap hii hfree hsize hslot).rekey hk (hsize ▸ hhome) (size_occupy ..) hocc
  refine ht.admit (σ := Equiv.swap i f) (o := t.order.transplant i f) hchained (hm ▸ rfl)
    ((size_occupy ..).trans hsize) hi.lt_size hk hout (hlast.trans_le hlt.le) ?_
    (congrArg (fun o => o.moveToEnd i) horder) (Order.size_transplant i f)
    (ht.threads_transplant hi hfree hlt) (by rw [hself]) (by rw [hself]; rfl) ?_ ?_
  · intro j hj hjlt
    rw [Equiv.symm_swap]
    rcases eq_or_ne j i with hji | hji
    · exact .inl hji
    rcases eq_or_ne j f with rfl | hjf
    · rw [Equiv.swap_apply_right]
      exact .inr hi
    · rw [Equiv.swap_apply_of_ne_of_ne hji hjf]
      exact .inr (ht.used_above hf j (lt_of_le_of_ne (hlast ▸ hj) hjf.symm) hjlt)
  · rw [Equiv.symm_swap, Equiv.swap_apply_left]
    exact ht.chained.isLive_eq_false hfree
  · intro j hj
    rw [hrest j hj]
    exact ⟨rfl, rfl⟩

theorem home?_lt {m : Nat} (hm : t.home? h k = some m) : m < t.slots.size := by
  rw [home?] at hm
  split_ifs at hm with hempty
  have hpos : 0 < t.slots.size :=
    Nat.pos_of_ne_zero fun h0 => hempty (by rw [Array.isEmpty_iff_size_eq_zero, h0])
  cases hm
  exact Value.mainPosition_lt h hpos k

theorem Threaded.admitted (ht : Threaded h t) (hk : k.IsKey)
    (hout : inArray t.array.size k = false) (hins : t.insert? h k = some (i, t')) :
    Admitted h t k i t' := by
  simp only [insert?, place?, Option.map_eq_some_iff, Prod.exists, Prod.mk.injEq] at hins
  obtain ⟨j, m, hp, rfl, rfl⟩ := hins
  split at hp
  · cases hp
  rename_i m hm
  have hmlt := home?_lt hm
  rw [home?_eq_some hmlt, Option.some.injEq] at hm
  split_ifs at hp with hlive
  · obtain ⟨f, hf, hp⟩ := Option.map_eq_some_iff.1 hp
    have hmu : t.Used m := by
      by_contra hn
      simp [ht.chained.isLive_eq_false hn] at hlive
    unfold makeRoom at hp
    dsimp only at hp
    split_ifs at hp with hii
    · cases hp
      exact ht.admitted_free hk hout hmu hm hii hf
    · cases hp
      -- the entry there is on the chain of its own main position, so it has a predecessor
      have hc := ht.chained.lastFree f
      obtain ⟨rank, hrank⟩ := hc.ranked
      exact ht.admitted_swap hk hout hmu hm hii hf
        (hc.predecessor_link hrank (hc.reached _ hmu) hii (card_ahead_le _ rank _))
  · cases hp
    exact ht.admitted_home hk hout hmlt hm (Bool.not_eq_true _ ▸ hlive)

theorem Valid.inserted {h : SeededHash} (hv : Valid h t) (hk : k.IsKey)
    (hnew : t.cell? h k = none) (hins : t.insert? h k = some (i, t')) : Inserted h t k i t' := by
  obtain ⟨hout, hne⟩ := hv.new_key hnew
  exact (hv.admitted hk hout hins).inserted hv.distinct hne

/-- Where no key can be inserted there is no free slot left. -/
theorem Threaded.full_of_insert?_eq_none (ht : Threaded h t) (hins : t.insert? h k = none) :
    t.order.toList.length = t.slots.size := by
  refine le_antisymm (ht.links ▸ ht.threads.length_le) (Nat.le_of_not_lt fun hlt => ?_)
  obtain ⟨i, hi, hfree⟩ := ht.exists_free hlt
  have hpos : 0 < t.slots.size := by omega
  rw [insert?, Option.map_eq_none_iff, place?, home?_eq_some hpos] at hins
  dsimp only at hins
  split_ifs at hins
  rw [Option.map_eq_none_iff, freeBelow_eq_none_iff] at hins
  exact hfree (hins i hi)

end LuaData.Table
