import LuaData.Proofs.Table.Atomicity
import Mathlib.Order.Bounds.Defs

namespace LuaData.Ledger

theorem Proper.nodup {m : Ledger} (h : Proper m) : m.Nodup := by
  refine List.Pairwise.imp_of_mem (fun {a b} ha _ hab => ?_) h.distinct
  rintro rfl
  rw [(h.isKey a ha).equal_self] at hab
  cases hab

end LuaData.Ledger

namespace LuaData.Table

open Collector Ledger

variable {h : SeededHash} {s : History} {t t' : Table} {c c' : Collector}

theorem isLeast_capacity {n : Nat} (hn : n ≠ 0) :
    IsLeast {p | n ≤ p ∧ ∃ m, p = 2 ^ m} (capacity n) := by
  refine ⟨⟨le_capacity n, (capacity_eq n).resolve_left fun hzero => ?_⟩, ?_⟩
  · have hle := le_capacity n
    omega
  rintro p ⟨hle, m, rfl⟩
  unfold capacity
  rw [if_neg hn]
  split_ifs with hone
  · exact Nat.one_le_two_pow
  · have hlog : (n - 1).log2 < m := (Nat.log2_lt (by omega)).2 (by omega)
    rw [Nat.one_shiftLeft]
    exact Nat.pow_le_pow_right (by omega) hlog

def Ascends (a b : Value × Value) : Prop :=
  ∃ m n, a.1.toInteger? = some m ∧ b.1.toInteger? = some n ∧ m < n

theorem pairwise_ascends (ht : t.array.size ≤ maxArraySize) (size : Nat) :
    (t.displaced size).Pairwise Ascends := by
  rw [displaced_eq]
  refine List.pairwise_filterMap.2 (List.Pairwise.imp_of_mem ?_ List.pairwise_lt_range')
  intro i j hi hj hlt a ha b hb
  rw [List.mem_range'_1] at hi hj
  refine ⟨i + 1, j + 1, ?_, ?_, by omega⟩
  · rw [(arrayItem?_eq_some_iff.1 ha).1, toInteger?_index (by omega)]
  · rw [(arrayItem?_eq_some_iff.1 hb).1, toInteger?_index (by omega)]

theorem eq_of_equal_of_inArray {a b : Value} {size : Nat} (he : a.equal b = true)
    (hb : inArray size b = true) : a = b := by
  unfold inArray at hb
  cases hn : b.toInteger? with
  | none => simp [hn] at hb
  | some n =>
    simp only [hn, decide_eq_true_eq] at hb
    have ha : a.toInteger? = some n := (Value.toInteger?_congr he).trans hn
    rw [Value.eq_integer ha (by omega), Value.eq_integer hn (by omega)]

/-- Stored anew, the entries without a place in the array part come one after the other. -/
theorem Valid.slotEntries_foldl (hv : Valid h t) (hlive : ∀ i, t.Used i → (t.slot i).isLive = true)
    {es : List (Value × Value)} (hes : Proper (t.slotEntries ++ es))
    (hroom : t.order.toList.length + es.countP (fun e => !inArray t.array.size e.1) ≤
      t.slots.size) :
    (es.foldl (reinsert h) t).slotEntries =
      t.slotEntries ++ es.filter fun e => !inArray t.array.size e.1 := by
  induction es generalizing t with
  | nil => exact (List.append_nil _).symm
  | cons e es ih =>
    have hk := hes.isKey e (by simp)
    have hp := hes.present e (by simp)
    cases hout : inArray t.array.size e.1 with
    | true =>
      -- the entry goes to its array cell, and the slots stay
      have hcell : ∃ i, t.cell? h e.1 = some (.array i) := by
        obtain ⟨i, hi⟩ := Option.ne_none_iff_exists'.1 fun hnone => by
          rw [arrayIndex?_eq_none_iff.1 hnone] at hout
          cases hout
        exact ⟨i, by rw [cell?, hi]⟩
      obtain ⟨i, hcell⟩ := hcell
      have hstep := hv.restored_reinsert hlive hk hp fun hno => by rw [hout] at hno; cases hno
      have hwrite : t.reinsert h e = t.write (.array i) e.2 := by rw [reinsert, hcell]
      rw [List.countP_cons_of_neg (by rw [hout]; exact Bool.false_ne_true)] at hroom
      rw [List.foldl_cons, List.filter_cons_of_neg (by rw [hout]; exact Bool.false_ne_true)]
      rw [ih hstep.valid hstep.live, hstep.array_size, hwrite]
      · rfl
      · rw [hwrite]
        exact hes.sublist ((List.sublist_cons_self e es).append_left _)
      · rw [hstep.array_size, hstep.slots_size, hwrite, order_write]
        exact hroom
    | false =>
      have hne : ∀ a ∈ t.slotEntries, a.1.equal e.1 = false := fun a ha =>
        (List.pairwise_append.1 hes.distinct).2.2 a ha e List.mem_cons_self
      rw [List.countP_cons_of_pos (by rw [hout]; rfl)] at hroom
      have hstep := hv.restored_reinsert hlive hk hp fun _ => by omega
      have hslots := (hv.slotEntries_reinsert hk hp (hv.cell?_eq_none_of_live hlive hout hne)
        (by omega)).1
      have hused := hstep.used_le.trans (Nat.add_le_add_left List.countP_le_length _)
      rw [List.length_singleton] at hused
      rw [List.foldl_cons, List.filter_cons_of_pos (by rw [hout]; rfl)]
      rw [ih hstep.valid hstep.live, hstep.array_size, hslots, List.append_assoc]
      · rfl
      · rwa [hslots, List.append_assoc]
      · rw [hstep.array_size, hstep.slots_size]
        omega

/-- The entries that are not stored anew are those that the array part keeps. -/
theorem filter_entriesToMove {a : Nat} (ha : a ≤ maxArraySize) :
    (t.entriesToMove a).filter (fun e => !inArray a e.1) =
      t.contents.filter fun e => !inArray a e.1 := by
  have hkept : (t.bare a 0).contents.filter (fun e => !inArray a e.1) = [] := by
    refine List.filter_eq_nil_iff.2 fun e he => ?_
    rw [inArray_contents_bare 0 ha he]
    exact Bool.false_ne_true
  rw [contents_eq_bare t a 0, List.filter_append, hkept, List.nil_append]

section Rebuild

variable {a n : Nat}

theorem Valid.proper_entriesToMove (hv : Valid h t) (a : Nat) : Proper (t.entriesToMove a) := by
  have hproper := hv.proper_contents
  rw [contents_eq_bare t a 0] at hproper
  exact hproper.sublist (List.sublist_append_right _ _)

theorem Valid.slotEntries_rebuild (hv : Valid h t) (ha : a ≤ maxArraySize)
    (hn : n = 0 ∨ ∃ m, n = 2 ^ m) (hroom : t.overflowCount a ≤ n) :
    (t.rebuild h a n).slotEntries = t.contents.filter fun e => !inArray a e.1 := by
  have hbare : (t.bare a n).slotEntries = [] := by rw [slotEntries, toList_bare]; rfl
  have hsize : (t.bare a n).slots.size = n := Array.size_replicate ..
  have hproper : Proper ((t.bare a n).slotEntries ++ t.entriesToMove a) := by
    rw [hbare]
    exact hv.proper_entriesToMove a
  have hfold := (Valid.bare (h := h) (t := t) ha hn).slotEntries_foldl
    (fun i hi => absurd hi (not_used_bare t a n i)) hproper (by
      rw [toList_bare, array_size_bare, countP_entriesToMove hv.array_size, hsize]
      simpa using hroom)
  rw [hbare, List.nil_append, array_size_bare, filter_entriesToMove ha] at hfold
  exact hfold

theorem Resized.mem_displaced (hr : Resized h t a n t') (hv : Valid h t) {e : Value × Value} :
    e ∈ t'.displaced 0 ↔ e ∈ t.contents ∧ inArray a e.1 = true := by
  have hv' := hr.valid
  have hmax : a ≤ maxArraySize := hr.array_size ▸ hv'.array_size
  have hin : ∀ {e}, e ∈ t'.displaced 0 → inArray a e.1 = true := fun {e} he => by
    obtain ⟨i, -, hi, he⟩ := Table.mem_displaced.1 he
    rw [hr.array_size] at hi
    rw [(arrayItem?_eq_some_iff.1 he).1, inArray_index (by omega), decide_eq_true hi]
  -- equal keys are the same where the array part takes them
  have hsame : ∀ {b : Value × Value} {k v : Value}, b.1.equal k = true → b.2 = v →
      inArray a k = true → b = (k, v) := fun hk hv hin =>
    Prod.ext (eq_of_equal_of_inArray hk hin) hv
  constructor
  · intro he
    have hself := (hv'.proper_contents.isKey e (List.mem_append_left _ he)).equal_self
    obtain ⟨b, hb, hk, hw⟩ := (hr.matches_contents.holds e.1 e.2).1
      ⟨e, List.mem_append_left _ he, hself, rfl⟩
    have hbe : b = e := hsame hk hw (hin he)
    exact ⟨hbe ▸ hb, hin he⟩
  · rintro ⟨he, hke⟩
    have hself := (hv.proper_contents.isKey e he).equal_self
    obtain ⟨b, hb, hk, hw⟩ := (hr.matches_contents.holds e.1 e.2).2 ⟨e, he, hself, rfl⟩
    have hbe : b = e := hsame hk hw hke
    subst hbe
    refine (List.mem_append.1 hb).resolve_right fun hslot => ?_
    obtain ⟨i, hi, hitem⟩ := mem_slotEntries.1 hslot
    have hout := hv'.apart i ((hv'.member i).1 hi)
    rw [hr.array_size, ← (slotItem?_eq_some_iff.1 hitem).1, hke] at hout
    cases hout

theorem Resized.perm_displaced (hr : Resized h t a n t') (hv : Valid h t) :
    (t'.displaced 0).Perm (t.contents.filter fun e => inArray a e.1) := by
  refine (List.perm_ext_iff_of_nodup ?_ (hv.proper_contents.nodup.filter _)).2 fun e => ?_
  · exact (proper_displaced hr.valid.array_size 0).nodup
  · rw [hr.mem_displaced hv, List.mem_filter]

end Rebuild

/-- Each of the entries that parts of `a` and `n` places take back one after the other finds its
cell, or a slot for a new one. -/
def Roomy (h : StringHash) (t : Table) (a n : Nat) : Prop :=
  ∀ done e rest, t.entriesToMove a = done ++ e :: rest →
    let t' := done.foldl (reinsert h) (t.bare a n)
    (t'.cell? h e.1).isSome = true ∨ (t'.insert? h e.1).isSome = true

theorem Valid.roomy (hv : Valid h t) {a n : Nat} (ha : a ≤ maxArraySize)
    (hn : n = 0 ∨ ∃ m, n = 2 ^ m) (hroom : t.overflowCount a ≤ n) : Roomy h t a n := by
  intro done e rest hs t'
  have hproper := hv.proper_entriesToMove a
  have hcount := countP_entriesToMove hv.array_size a
  have hsize : (t.bare a n).slots.size = n := Array.size_replicate ..
  rw [hs] at hproper hcount
  rw [List.countP_append] at hcount
  have hr : Restored h (t.bare a n) done t' := by
    refine (Valid.bare ha hn).restored_foldl (fun i hi => absurd hi (not_used_bare t a n i))
      (fun d hd => hproper.isKey d (by simp [hd])) (fun d hd => hproper.present d (by simp [hd])) ?_
    rw [toList_bare, array_size_bare, hsize, List.length_nil]
    omega
  rw [or_iff_not_imp_left, Option.not_isSome_iff_eq_none]
  intro hnew
  have hout := (hr.valid.new_key hnew).1
  have hused := hr.used_le
  rw [hr.array_size, array_size_bare] at hout
  rw [toList_bare, array_size_bare, List.length_nil] at hused
  rw [List.countP_cons_of_pos (by rw [hout]; rfl)] at hcount
  rw [Option.isSome_iff_ne_none]
  intro hins
  have hfull := hr.valid.full_of_insert?_eq_none hins
  rw [hr.slots_size, hsize] at hfull
  omega

theorem refused_noteKeys (c : Collector) (es : List (Value × Value)) :
    (noteKeys c es).stats.refused = c.stats.refused := by
  induction es generalizing c with
  | nil => rfl
  | cons e es ih => exact (ih _).trans (refused_noteStored c .table e.1)

theorem refused_freePart (c : Collector) (b : Block) (n : Nat) :
    (if n = 0 then c else c.free b n).stats.refused = c.stats.refused := by
  split_ifs <;> rfl

theorem refused_requestParts (t : Table) (c : Collector) (a n : Nat) :
    (t.requestParts c a n).2.stats.refused =
      c.stats.refused + if (t.requestParts c a n).1 then 0 else 1 := by
  have hhash : (if n = 0 then (true, c) else c.alloc .hashPart n).2.stats.refused =
      c.stats.refused + if (if n = 0 then (true, c) else c.alloc .hashPart n).1 then 0 else 1 := by
    by_cases hn : n = 0
    · rw [if_pos hn]
      rfl
    · rw [if_neg hn]
      exact refused_alloc c .hashPart n
  unfold requestParts
  generalize (if n = 0 then (true, c) else c.alloc .hashPart n) = r at hhash ⊢
  obtain ⟨granted, c₁⟩ := r
  cases granted with
  | false => exact hhash
  | true =>
    replace hhash : c₁.stats.refused = c.stats.refused := hhash
    have harray := refused_realloc c₁ .arrayPart t.array.size a
    rw [hhash] at harray
    simp only [Bool.not_true, Bool.false_eq_true, if_false]
    by_cases ha : a = t.array.size
    · rw [if_pos ha]
      exact hhash
    · rw [if_neg ha]
      generalize c₁.realloc .arrayPart t.array.size a = r at harray ⊢
      obtain ⟨granted', c₂⟩ := r
      cases granted' with
      | true => exact harray
      | false => exact (refused_freePart c₂ .hashPart n).trans harray

/-- A resize asks for too much, is refused, or does what it is asked for. -/
theorem resize_outcome (h : StringHash) (t : Table) (c : Collector) (a n : Nat) :
    let size := min a maxArraySize
    let needed := max n (t.overflowCount size)
    (maxHashSize < needed ∧ t.resize h c a n = ⟨.error .overflow, t, c⟩) ∨
    (needed ≤ maxHashSize ∧ ∃ c', t.resize h c a n = ⟨.error .outOfMemory, t, c'⟩ ∧
      c'.stats.refused = c.stats.refused + 1) ∨
    (needed ≤ maxHashSize ∧ ∃ c',
      t.resize h c a n = ⟨.ok (), t.rebuild h size (capacity needed), c'⟩ ∧
        c'.stats.refused = c.stats.refused) := by
  intro size needed
  unfold resize
  dsimp only
  by_cases hlt : maxHashSize < needed
  · rw [if_pos hlt]
    exact .inl ⟨hlt, rfl⟩
  rw [if_neg hlt]
  have hparts := refused_requestParts t c size (capacity needed)
  generalize t.requestParts c size (capacity needed) = r at hparts ⊢
  obtain ⟨granted, c₁⟩ := r
  cases granted with
  | false => exact .inr (.inl ⟨Nat.not_lt.1 hlt, c₁, rfl, hparts⟩)
  | true =>
    refine .inr (.inr ⟨Nat.not_lt.1 hlt, _, rfl, ?_⟩)
    simp only [Array.isEmpty_iff_size_eq_zero]
    exact (refused_freePart ..).trans ((refused_noteKeys ..).trans hparts)

/-- What the table `t` has become over an array part of `a` places and a hash part with room for
`n` entries. -/
structure Reshaped (h : StringHash) (t : Table) (a n : Nat) (t' : Table) : Prop where
  array_size : t'.array.size = a
  slots_size : if n = 0 then t'.slots.size = 0
    else IsLeast {p | n ≤ p ∧ ∃ m, p = 2 ^ m} t'.slots.size
  get_eq : ∀ k, (t'.get h k).1 = (t.get h k).1
  live : ∀ i, t'.Used i → (t'.slot i).isLive = true
  /-- The entries that the array part takes come first, and the others keep their order. -/
  entries : ∃ es, es.Perm ((t.entries h).filter fun e => inArray a e.1) ∧ es.Pairwise Ascends ∧
    t'.entries h = es ++ (t.entries h).filter fun e => !inArray a e.1
  entries_eq : a ≤ t.array.size → t'.entries h = t.entries h
  roomy : Roomy h t a t'.slots.size

theorem Valid.reshaped_rebuild (hv : Valid h t) {a n : Nat} (ha : a ≤ maxArraySize)
    (hroom : t.overflowCount a ≤ n) : Reshaped h t a n (t.rebuild h a (capacity n)) := by
  have hcap := hroom.trans (le_capacity n)
  have hr := hv.resized_rebuild ha (capacity_eq n) hcap
  have hv' := hr.valid
  constructor
  case array_size => exact hr.array_size
  case slots_size =>
    rw [hr.slots_size]
    split_ifs with hn
    · rw [hn]
      rfl
    · exact isLeast_capacity hn
  case get_eq =>
    intro k
    rw [hv'.get_eq_lookup, hv.get_eq_lookup,
      hr.matches_contents.lookup_eq hv'.proper_contents hv.proper_contents]
  case live => exact hr.live
  case entries =>
    rw [hv'.entries_eq, hv.entries_eq]
    refine ⟨_, hr.perm_displaced hv, pairwise_ascends hv'.array_size 0, ?_⟩
    rw [contents, hv.slotEntries_rebuild ha (capacity_eq n) hcap]
  case entries_eq =>
    intro hle
    rw [hv'.entries_eq, hv.entries_eq, hv.contents_rebuild hle (capacity_eq n) hcap]
  case roomy =>
    rw [hr.slots_size]
    exact hv.roomy ha (capacity_eq n) hcap

/-- A resize that is granted reshapes the table, and it fails only if it asks for too much or the
collector refuses it a part. -/
theorem Reachable.reshaped_of_resize (hs : Reachable h s) (c : Collector) (a n : Nat) :
    let t := s.table
    let size := min a maxArraySize
    let needed := max n ((t.entries h).countP fun e => !inArray size e.1)
    let o := t.resize h c a n
    (o.result = .ok () → Reshaped h t size needed o.table) ∧
      (o.result = .error .overflow ↔ maxHashSize < needed) ∧
      (o.result = .error .outOfMemory ↔ c.stats.refused < o.collector.stats.refused) ∧
      ∀ e, o.result = .error e → e = .overflow ∨ e = .outOfMemory := by
  intro t size needed o
  have hv : Valid h t := hs.sound.valid
  have ha : size ≤ maxArraySize := Nat.min_le_right ..
  have hcount : (t.entries h).countP (fun e => !inArray size e.1) = t.overflowCount size := by
    rw [hv.entries_eq, countP_contents hv.array_size ha]
  have houtcome : maxHashSize < needed ∧ o = ⟨.error .overflow, t, c⟩ ∨
      (needed ≤ maxHashSize ∧ ∃ c', o = ⟨.error .outOfMemory, t, c'⟩ ∧
        c'.stats.refused = c.stats.refused + 1) ∨
      needed ≤ maxHashSize ∧ ∃ c', o = ⟨.ok (), t.rebuild h size (capacity needed), c'⟩ ∧
        c'.stats.refused = c.stats.refused := by
    have hcases := resize_outcome h t c a n
    dsimp only at hcases
    rwa [← hcount] at hcases
  rcases houtcome with ⟨hlt, ho⟩ | ⟨hle, c', ho, hc⟩ | ⟨hle, c', ho, hc⟩ <;> rw [ho]
  · simp [hlt]
  · simp [hc, hle]
  · refine ⟨fun _ => hv.reshaped_rebuild ha (hcount ▸ Nat.le_max_right ..), ?_⟩
    simp [hc, hle]

/-- Two entries in the array part, and one beside a cleared one in the hash part. -/
def blended : History :=
  let c := Collector.new 0 1000
  (History.start .ofContent c 2 2).run .ofContent
    [(.set (.boolean true) (.boolean true), c), (.setInt 2 (.boolean true), c),
      (.set (.boolean false) (.boolean true), c), (.setInt 1 (.boolean false), c),
      (.set (.boolean true) .nil, c)]

theorem reachable_blended : Reachable .ofContent blended :=
  .step _ _ (.step _ _ (.step _ _ (.step _ _ (.step _ _ (.start (by rfl))))))

/-- The array part loses an entry, which then comes before that of the hash part. -/
theorem reshaped_of_resize_blended :
    let c := Collector.new 0 1000
    let o := blended.table.resize .ofContent c 1 0
    o.result = .ok () ∧ Reshaped .ofContent blended.table 1 2 o.table ∧
      o.table.entries .ofContent = [(.integer 1, .boolean false), (.integer 2, .boolean true),
        (.boolean false, .boolean true)] := by
  intro c o
  have hok : o.result = .ok () := by rfl
  have hreshaped := (reachable_blended.reshaped_of_resize c 1 0).1 hok
  have hneeded : max 0 ((blended.table.entries .ofContent).countP fun e =>
      !inArray (min 1 maxArraySize) e.1) = 2 := by decide +kernel
  rw [hneeded] at hreshaped
  exact ⟨hok, hreshaped, by decide +kernel⟩

end LuaData.Table
