import LuaData.Proofs.Ledger
import LuaData.Proofs.Table.Chain
import LuaData.Proofs.Table.Order

namespace LuaData.Table

open Ledger

variable {h : StringHash} {t t' : Table} {k v : Value} {c : Cell}

/-- What holds of a table under any hash of the strings: its order threads the used slots, its
chains lead to them, and no integer key that the array part takes is among them. -/
structure Threaded (h : StringHash) (t : Table) : Prop where
  array_size : t.array.size ≤ maxArraySize
  lastFree_le : t.lastFree ≤ t.slots.size
  chained : Chained h t
  links : t.order.links.size = t.slots.size
  threads : t.order.Threads t.order.toList
  member : ∀ i, i ∈ t.order.toList ↔ t.Used i
  apart : ∀ i, t.Used i → inArray t.array.size (t.slot i).key = false
  full : ∀ i, t.lastFree ≤ i → i < t.slots.size → t.Used i

/-- Where equal strings have one hash, a key that is looked for is found, so none is held twice. -/
structure Valid (h : StringHash) (t : Table) : Prop extends Threaded h t where
  distinct : t.Distinct

/-- The values and the order of the used slots may change, if no key and no chain does. -/
theorem Threaded.congr (ht : Threaded h t) (harray : t'.array.size = t.array.size)
    (hsize : t'.slots.size = t.slots.size) (hlast : t'.lastFree = t.lastFree)
    (hkey : ∀ i, (t'.slot i).key = (t.slot i).key)
    (hchain : ∀ i, (t'.slot i).chain = (t.slot i).chain)
    (hblank : ∀ i, ¬t.Used i → t'.slot i = t.slot i)
    (hlinks : t'.order.links.size = t.order.links.size) {is : List Nat}
    (hthreads : t'.order.Threads is) (hmem : ∀ i, i ∈ is ↔ t.Used i) : Threaded h t' := by
  have hused : ∀ i, t'.Used i ↔ t.Used i := fun i => by simp only [Used, Slot.isFree, hkey]
  constructor
  case array_size => exact harray ▸ ht.array_size
  case lastFree_le => exact hlast ▸ hsize ▸ ht.lastFree_le
  case chained => exact ht.chained.congr hsize hkey hchain hblank
  case links => rw [hlinks, hsize, ht.links]
  case threads => rwa [hthreads.toList_eq]
  case member => exact fun i => by rw [hthreads.toList_eq, hused, hmem]
  case apart => simpa only [hused, hkey, harray] using ht.apart
  case full => simpa only [hused, hlast, hsize] using ht.full

def contents (t : Table) : Ledger := t.displaced 0 ++ t.slotEntries

/-- The cell `c` belongs to the key `k`, be it present or not. -/
def Keyed (t : Table) : Cell → Value → Prop
  | .array i, k => i < t.array.size ∧ k = .integer (i + 1)
  | .slot i, k => t.Used i ∧ (t.slot i).key.equal k = true

theorem keyed_array {n : Nat} (hn : 1 ≤ n) (hle : n ≤ t.array.size) :
    t.Keyed (.array (n - 1)) (.integer n) := by
  refine ⟨by omega, ?_⟩
  congr 1
  omega

theorem inArray_congr {a b : Value} (size : Nat) (he : a.equal b = true) :
    inArray size a = inArray size b := by
  simp only [inArray, Value.toInteger?_congr he]

theorem arrayIndex?_eq_none_iff : t.arrayIndex? k = none ↔ inArray t.array.size k = false := by
  unfold arrayIndex? inArray
  cases k.toInteger? with
  | none => simp
  | some n => simp

theorem inArray_of_cell?_eq_none (hnew : t.cell? h k = none) :
    inArray t.array.size k = false := by
  rw [← arrayIndex?_eq_none_iff]
  unfold cell? at hnew
  split at hnew
  · cases hnew
  · assumption

theorem toInteger?_index {i : Nat} (hi : i < maxArraySize) :
    (Value.integer (i + 1)).toInteger? = some ((i : Int) + 1) := by
  rw [maxArraySize] at hi
  exact Value.toInteger?_integer (by omega)

theorem arrayIndex?_eq_some_iff (ht : t.array.size ≤ maxArraySize) {i : Nat} :
    t.arrayIndex? k = some i ↔ i < t.array.size ∧ k = .integer (i + 1) := by
  unfold arrayIndex?
  constructor
  · intro hi
    cases hk : k.toInteger? with
    | none => simp [hk] at hi
    | some n =>
      simp only [hk, Option.ite_none_right_eq_some, Option.some.injEq] at hi
      obtain ⟨⟨h1, hn⟩, rfl⟩ := hi
      refine ⟨by omega, ?_⟩
      rw [Value.eq_integer hk (by omega)]
      congr 1
      omega
  · rintro ⟨hi, rfl⟩
    rw [toInteger?_index (hi.trans_le ht)]
    dsimp only
    rw [if_pos (by omega)]
    congr 1

theorem inArray_index {i size : Nat} (hi : i < maxArraySize) :
    inArray size (.integer (i + 1)) = decide (i < size) := by
  rw [inArray, toInteger?_index hi]
  simp only [decide_eq_decide]
  omega

theorem Keyed.isKey (hv : Valid h t) (hc : t.Keyed c k) : k.IsKey := by
  cases c with
  | array i => exact hc.2 ▸ Value.isKey_integer _
  | slot i => exact (hv.chained.isKey i hc.1).congr hc.2

/-- The slot of a key is the used one that holds an equal key. -/
theorem Valid.findSlot_eq_some_iff {h : SeededHash} (hv : Valid h t) {i : Nat}
    (hk : k.isNil = false) :
    t.findSlot h k = some i ↔ t.Used i ∧ (t.slot i).key.equal k = true := by
  have hsound : ∀ {x}, t.findSlot h k = some x → t.Used x ∧ (t.slot x).key.equal k = true := by
    intro x hx
    obtain ⟨y, -, hf⟩ := Option.bind_eq_some_iff.1 hx
    have he := (follow_sound hf).2
    exact ⟨used_iff_isNil.2 (Value.isNil_congr he ▸ hk), he⟩
  refine ⟨hsound, fun ⟨hi, he⟩ => ?_⟩
  obtain ⟨rank, hrank⟩ := hv.chained.ranked
  have hhome : k.mainPosition h t.slots.size = t.homeOf h i :=
    (Value.mainPosition_congr h t.slots.size he).symm
  obtain ⟨x, hx⟩ := hv.chained.follow_isSome hrank (hv.chained.reached i hi) hi
    (p := fun s => s.key.equal k) he (card_ahead_le t rank _)
  have hfind : t.findSlot h k = some x := by
    rw [findSlot, search, home?_eq_some hi.lt_size, hhome]
    exact hx
  obtain ⟨hux, hex⟩ := hsound hfind
  -- the search may stop earlier, but only at an equal key, and there is one such slot
  have hxi : (t.slot x).key.equal (t.slot i).key = true := Value.equal_right he _ ▸ hex
  rw [hfind, hv.distinct x i hux hi hxi]

theorem Valid.findSlot_eq_none_iff {h : SeededHash} (hv : Valid h t) (hk : k.isNil = false) :
    t.findSlot h k = none ↔ ∀ i, t.Used i → (t.slot i).key.equal k = false := by
  rw [Option.eq_none_iff_forall_ne_some]
  refine forall_congr' fun i => ?_
  rw [Ne, hv.findSlot_eq_some_iff hk, not_and, Bool.not_eq_true]

/-- Every key has its cell, if any, where look-ups find it. -/
theorem Valid.cell?_eq_some_iff {h : SeededHash} (hv : Valid h t) :
    t.cell? h k = some c ↔ t.Keyed c k := by
  unfold cell?
  cases hi : t.arrayIndex? k with
  | some i =>
    have hk := (arrayIndex?_eq_some_iff hv.array_size).1 hi
    cases c with
    | array j =>
      simp only [Option.some.injEq, Cell.array.injEq]
      rw [Keyed, ← arrayIndex?_eq_some_iff hv.array_size, hi, Option.some.injEq]
    | slot j =>
      have hnot : ¬t.Keyed (.slot j) k := fun ⟨hu, he⟩ => by
        have hj := hv.apart j hu
        rw [inArray_congr _ he, ← arrayIndex?_eq_none_iff, hi] at hj
        cases hj
      simp [hnot]
  | none =>
    have hnone : ∀ j, ¬t.Keyed (.array j) k := fun j hj => by
      rw [Keyed, ← arrayIndex?_eq_some_iff hv.array_size, hi] at hj
      cases hj
    by_cases hnil : k.isNil = true
    · have hnot : ¬t.Keyed c k := fun hc => by simp [(hc.isKey hv).1] at hnil
      simp [hnil, hnot]
    rw [Bool.not_eq_true] at hnil
    simp only [hnil, Bool.false_eq_true, if_false, Option.map_eq_some_iff,
      hv.findSlot_eq_some_iff hnil]
    cases c with
    | array j => simp [hnone j]
    | slot j => simp [Keyed]

theorem Valid.cell?_eq_none_iff {h : SeededHash} (hv : Valid h t) :
    t.cell? h k = none ↔ ∀ c, ¬t.Keyed c k := by
  simp only [Option.eq_none_iff_forall_ne_some, Ne, hv.cell?_eq_some_iff]

/-- Equal keys share a cell. -/
theorem Keyed.congr {a b : Value} (hv : Valid h t) (hc : t.Keyed c a) (he : a.equal b = true) :
    t.Keyed c b := by
  cases c with
  | array i =>
    obtain ⟨hi, rfl⟩ := hc
    have hb : b.toInteger? = some ((i : Int) + 1) :=
      (Value.toInteger?_congr he).symm.trans (toInteger?_index (hi.trans_le hv.array_size))
    exact ⟨hi, Value.eq_integer hb (by omega)⟩
  | slot i => exact ⟨hc.1, Value.equal_trans hc.2 he⟩

/-- A cell belongs to equal keys only. -/
theorem Keyed.equal {a b : Value} (ha : t.Keyed c a) (hb : t.Keyed c b) : a.equal b = true := by
  cases c with
  | array i => rw [ha.2, hb.2, (Value.isKey_integer _).equal_self]
  | slot i => rw [← Value.equal_left ha.2, hb.2]

/-- A key has one cell. -/
theorem Keyed.eq {h : SeededHash} {c' : Cell} (hv : Valid h t) (hc : t.Keyed c k)
    (hc' : t.Keyed c' k) : c = c' :=
  Option.some_injective _
    ((hv.cell?_eq_some_iff.2 hc).symm.trans (hv.cell?_eq_some_iff.2 hc'))

theorem present?_eq_some_iff {w : Value} :
    v.present? = some w ↔ v.isNil = false ∧ v = w := by
  unfold Value.present?
  split_ifs with hv <;> simp [hv]

theorem arrayItem?_eq_some_iff {i : Nat} {e : Value × Value} : t.arrayItem? i = some e ↔
    e.1 = .integer (i + 1) ∧ e.2 = t.read (.array i) ∧ e.2.isNil = false := by
  simp only [arrayItem?, Option.map_eq_some_iff, present?_eq_some_iff, read]
  constructor
  · rintro ⟨v, ⟨hv, rfl⟩, rfl⟩
    exact ⟨rfl, rfl, hv⟩
  · rintro ⟨h1, h2, h3⟩
    exact ⟨e.2, ⟨h2 ▸ h3, h2.symm⟩, by rw [← h1]⟩

theorem slotItem?_eq_some_iff {i : Nat} {e : Value × Value} : t.slotItem? i = some e ↔
    e.1 = (t.slot i).key ∧ e.2 = t.read (.slot i) ∧ e.2.isNil = false := by
  simp only [slotItem?, Option.ite_none_right_eq_some, Option.some.injEq, Slot.isLive, read,
    Bool.not_eq_true']
  constructor
  · rintro ⟨hv, rfl⟩
    exact ⟨rfl, rfl, hv⟩
  · rintro ⟨h1, h2, h3⟩
    exact ⟨h2 ▸ h3, by rw [← h1, ← h2]⟩

theorem displaced_eq (t : Table) (size : Nat) : t.displaced size =
    (List.range' size (t.array.size - size)).filterMap t.arrayItem? := by
  rw [displaced, arrayEntries_eq, List.append_nil]

theorem displaced_congr {size : Nat} (ha : t'.array = t.array) :
    t'.displaced size = t.displaced size := by
  rw [displaced_eq, displaced_eq, ha]
  exact List.filterMap_congr fun i _ => by rw [arrayItem?, arrayItem?, ha]

theorem contents_congr (harray : t'.array = t.array) (hslots : t'.slots = t.slots)
    (horder : t'.order = t.order) : t'.contents = t.contents := by
  have hitem : t'.slotItem? = t.slotItem? := by
    funext i
    rw [slotItem?, slotItem?, slot, slot, hslots]
  rw [contents, contents, slotEntries, slotEntries, displaced_congr harray, horder, hitem]

theorem mem_displaced {size : Nat} {e : Value × Value} : e ∈ t.displaced size ↔
    ∃ i, size ≤ i ∧ i < t.array.size ∧ t.arrayItem? i = some e := by
  rw [displaced_eq, List.mem_filterMap]
  refine exists_congr fun i => ?_
  rw [List.mem_range'_1, ← and_assoc]
  refine and_congr_left fun _ => ?_
  omega

theorem mem_slotEntries {e : Value × Value} : e ∈ t.slotEntries ↔
    ∃ i ∈ t.order.toList, t.slotItem? i = some e := List.mem_filterMap

/-- The ledger of a valid table holds what the cells hold. -/
theorem Valid.holds_contents (hv : Valid h t) {w : Value} : t.contents.Holds k w ↔
    ∃ c, t.Keyed c k ∧ t.read c = w ∧ w.isNil = false := by
  constructor
  · rintro ⟨e, he, hek, rfl⟩
    rcases List.mem_append.1 he with he | he
    · obtain ⟨i, -, hi, he⟩ := mem_displaced.1 he
      obtain ⟨h1, h2, h3⟩ := arrayItem?_eq_some_iff.1 he
      have hc : t.Keyed (.array i) e.1 := ⟨hi, h1⟩
      exact ⟨.array i, hc.congr hv hek, h2.symm, h3⟩
    · obtain ⟨i, hi, he⟩ := mem_slotEntries.1 he
      obtain ⟨h1, h2, h3⟩ := slotItem?_eq_some_iff.1 he
      exact ⟨.slot i, ⟨(hv.member i).1 hi, h1 ▸ hek⟩, h2.symm, h3⟩
  · rintro ⟨c, hc, rfl, hw⟩
    cases c with
    | array i =>
      refine ⟨(.integer (i + 1), t.read (.array i)), List.mem_append_left _ ?_,
        hc.2 ▸ (Value.isKey_integer _).equal_self, rfl⟩
      exact mem_displaced.2 ⟨i, i.zero_le, hc.1, arrayItem?_eq_some_iff.2 ⟨rfl, rfl, hw⟩⟩
    | slot i =>
      refine ⟨((t.slot i).key, t.read (.slot i)), List.mem_append_right _ ?_, hc.2, rfl⟩
      exact mem_slotEntries.2
        ⟨i, (hv.member i).2 hc.1, slotItem?_eq_some_iff.2 ⟨rfl, rfl, hw⟩⟩

theorem Valid.proper_slotEntries (hv : Valid h t) : Proper t.slotEntries where
  isKey e he := by
    obtain ⟨i, hi, he⟩ := mem_slotEntries.1 he
    rw [(slotItem?_eq_some_iff.1 he).1]
    exact hv.chained.isKey i ((hv.member i).1 hi)
  present e he := by
    obtain ⟨i, -, he⟩ := mem_slotEntries.1 he
    exact (slotItem?_eq_some_iff.1 he).2.2
  distinct := by
    refine List.pairwise_filterMap.2 (List.Pairwise.imp_of_mem ?_ hv.threads.nodup)
    intro i j hi hj hne a ha b hb
    rw [(slotItem?_eq_some_iff.1 ha).1, (slotItem?_eq_some_iff.1 hb).1, Bool.eq_false_iff]
    exact fun he => hne (hv.distinct i j ((hv.member i).1 hi) ((hv.member j).1 hj) he)

theorem proper_displaced (ht : t.array.size ≤ maxArraySize) (size : Nat) :
    Proper (t.displaced size) where
  isKey e he := by
    obtain ⟨i, -, -, he⟩ := mem_displaced.1 he
    rw [(arrayItem?_eq_some_iff.1 he).1]
    exact Value.isKey_integer _
  present e he := by
    obtain ⟨i, -, -, he⟩ := mem_displaced.1 he
    exact (arrayItem?_eq_some_iff.1 he).2.2
  distinct := by
    rw [displaced_eq]
    refine List.pairwise_filterMap.2 (List.Pairwise.imp_of_mem ?_ List.nodup_range')
    intro i j hi hj hne a ha b hb
    rw [List.mem_range'_1] at hi hj
    rw [(arrayItem?_eq_some_iff.1 ha).1, (arrayItem?_eq_some_iff.1 hb).1, Bool.eq_false_iff]
    intro he
    have hint := Value.toInteger?_congr he
    rw [toInteger?_index (by omega), toInteger?_index (by omega), Option.some.injEq] at hint
    omega

theorem Valid.proper_contents {h : SeededHash} (hv : Valid h t) : Proper t.contents where
  isKey e he := (List.mem_append.1 he).elim ((proper_displaced hv.array_size 0).isKey e)
    (hv.proper_slotEntries.isKey e)
  present e he := (List.mem_append.1 he).elim ((proper_displaced hv.array_size 0).present e)
    (hv.proper_slotEntries.present e)
  distinct := by
    refine List.pairwise_append.2 ⟨(proper_displaced hv.array_size 0).distinct,
      hv.proper_slotEntries.distinct, fun a ha b hb => Bool.eq_false_iff.2 fun he => ?_⟩
    obtain ⟨i, -, hi, ha⟩ := mem_displaced.1 ha
    obtain ⟨j, hj, hb⟩ := mem_slotEntries.1 hb
    have hca : t.Keyed (.array i) a.1 := ⟨hi, (arrayItem?_eq_some_iff.1 ha).1⟩
    have hcb : t.Keyed (.slot j) a.1 :=
      ⟨(hv.member j).1 hj, (slotItem?_eq_some_iff.1 hb).1 ▸ Value.equal_comm a.1 b.1 ▸ he⟩
    cases hca.eq hv hcb

theorem neverInArray_index {i : Nat} (hi : i < maxArraySize) :
    (Value.integer (i + 1)).neverInArray = false := by
  rw [Bool.eq_false_iff, Ne, Value.neverInArray_iff]
  intro hnever
  exact hnever _ (toInteger?_index hi) (by omega)

theorem outside_displaced (ht : t.array.size ≤ maxArraySize) (size : Nat) :
    outside (t.displaced size) = [] := by
  refine List.filter_eq_nil_iff.2 fun e he => ?_
  obtain ⟨i, -, hi, he⟩ := mem_displaced.1 he
  rw [(arrayItem?_eq_some_iff.1 he).1, neverInArray_index (by omega)]
  exact Bool.false_ne_true

theorem Valid.outside_contents (hv : Valid h t) :
    outside t.contents = outside t.slotEntries := by
  have hd := outside_displaced hv.array_size 0
  unfold outside at hd ⊢
  rw [contents, List.filter_append, hd, List.nil_append]

/-- A look-up reads the ledger. -/
theorem Valid.get_eq_lookup {h : SeededHash} (hv : Valid h t) (k : Value) :
    (t.get h k).1 = t.contents.lookup k := by
  ext w
  rw [lookup_eq_some_iff hv.proper_contents, hv.holds_contents, get]
  cases hc : t.cell? h k with
  | none =>
    have hno := hv.cell?_eq_none_iff.1 hc
    simp [visit, hno]
  | some c =>
    have hk := hv.cell?_eq_some_iff.1 hc
    simp only [visit, present?_eq_some_iff]
    constructor
    · rintro ⟨hw, rfl⟩
      exact ⟨c, hk, rfl, hw⟩
    · rintro ⟨c', hc', rfl, hw⟩
      rw [hk.eq hv hc']
      exact ⟨hw, rfl⟩

theorem isSome_arrayItem? (t : Table) (i : Nat) :
    (t.arrayItem? i).isSome = !(t.array.getD i .nil).isNil := by
  rw [arrayItem?, Option.isSome_map, Value.present?]
  cases (t.array.getD i .nil).isNil <;> rfl

theorem arrayCount_eq (t : Table) : t.arrayCount = (t.displaced 0).length := by
  have hlist : t.array.toList = (List.range' 0 t.array.size).map fun i => t.array.getD i .nil := by
    refine List.ext_getElem (by simp) fun i hi _ => ?_
    rw [Array.length_toList] at hi
    simp [hi]
  rw [arrayCount, ← Array.countP_toList, hlist, List.countP_map, displaced_eq, Nat.sub_zero,
    List.length_filterMap_eq_countP]
  exact List.countP_congr fun i _ => by rw [isSome_arrayItem?]; rfl

/-- The exact count is the number of entries. -/
theorem count_eq (t : Table) : t.count false = t.contents.length := by
  rw [count, contents, List.length_append, ← arrayCount_eq]
  rfl

end LuaData.Table
