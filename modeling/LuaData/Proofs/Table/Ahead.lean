import LuaData.Proofs.Table.Atomicity

namespace LuaData.Table

open Ledger

variable {h : SeededHash} {t t' : Table} {k v : Value} {c : Cell} {e : Value × Value}
  {es : List (Value × Value)}

def cells (t : Table) : List Cell :=
  (List.range' 0 t.array.size).map .array ++ t.order.toList.map .slot

def cellKey (t : Table) : Cell → Value
  | .array i => .integer (i + 1)
  | .slot i => (t.slot i).key

def item? (t : Table) (c : Cell) : Option (Value × Value) :=
  (t.read c).present?.map fun v => (t.cellKey c, v)

theorem item?_slot (t : Table) (i : Nat) : t.item? (.slot i) = t.slotItem? i := by
  rw [item?, slotItem?, Slot.isLive, Value.present?, read]
  cases (t.slot i).value.isNil <;> rfl

theorem filterMap_slots (t : Table) (is : List Nat) :
    (is.map Cell.slot).filterMap t.item? = is.filterMap t.slotItem? := by
  rw [List.filterMap_map]
  exact List.filterMap_congr fun i _ => item?_slot t i

theorem contents_eq_items (t : Table) : t.contents = t.cells.filterMap t.item? := by
  rw [contents, cells, List.filterMap_append, filterMap_slots, List.filterMap_map, displaced_eq,
    Nat.sub_zero]
  rfl

theorem Valid.mem_cells (hv : Valid h t) : c ∈ t.cells ↔ t.HasCell c := by
  cases c with
  | array i => simp [cells, HasCell]
  | slot i => simp [cells, HasCell, hv.member]

theorem Valid.nodup_cells (hv : Valid h t) : t.cells.Nodup := by
  refine List.nodup_append.2 ⟨?_, ?_, by simp⟩
  · exact List.Nodup.map (fun i j hij => Cell.array.inj hij) List.nodup_range'
  · exact List.Nodup.map (fun i j hij => Cell.slot.inj hij) hv.threads.nodup

theorem Valid.keyed_cellKey (hv : Valid h t) (hc : t.HasCell c) : t.Keyed c (t.cellKey c) := by
  cases c with
  | array i => exact ⟨hc, rfl⟩
  | slot i => exact ⟨hc, (hv.chained.isKey i hc).equal_self⟩

theorem Valid.get_of_keyed (hv : Valid h t) (hc : t.Keyed c k) :
    (t.get h k).1 = (t.read c).present? := by
  rw [get, hv.cell?_eq_some_iff.2 hc]
  rfl

/-- A traversal that has returned the key `k` last has the entries `es` ahead; nil starts it. -/
def Ahead (t : Table) (k : Value) (es : List (Value × Value)) : Prop :=
  k.isNil = true ∧ es = t.contents ∨
    ∃ xs c ys, t.Keyed c k ∧ t.cells = xs ++ c :: ys ∧ es = ys.filterMap t.item?

theorem ahead_nil (t : Table) : t.Ahead .nil t.contents := .inl ⟨rfl, rfl⟩

theorem Ahead.suffix (ha : t.Ahead k es) : ∃ as, t.contents = as ++ es := by
  rcases ha with ⟨-, rfl⟩ | ⟨xs, c, ys, -, hs, rfl⟩
  · exact ⟨[], rfl⟩
  · refine ⟨xs.filterMap t.item? ++ (t.item? c).toList, ?_⟩
    rw [contents_eq_items, hs, List.filterMap_append, List.filterMap_cons, List.append_assoc]
    cases t.item? c <;> rfl

theorem Valid.ahead_of_contents (hv : Valid h t) {as : List (Value × Value)}
    (hs : t.contents = as ++ e :: es) (he : e.1.equal k = true) : t.Ahead k es := by
  rw [contents_eq_items] at hs
  obtain ⟨xs, zs, hcells, -, hzs⟩ := List.filterMap_eq_append_iff.1 hs
  obtain ⟨ws, c, ys, rfl, -, hc, hys⟩ := List.filterMap_eq_cons_iff.1 hzs
  have hmem : c ∈ t.cells := by
    rw [hcells]
    simp
  obtain ⟨w, -, rfl⟩ := Option.map_eq_some_iff.1 hc
  refine .inr ⟨xs ++ ws, c, ys, (hv.keyed_cellKey (hv.mem_cells.1 hmem)).congr hv he, ?_, hys.symm⟩
  rw [hcells, List.append_assoc]

theorem Valid.present_iff (hv : Valid h t) :
    (t.get h k).1.isSome = true ↔ ∃ e ∈ t.contents, e.1.equal k = true := by
  rw [hv.get_eq_lookup, Option.isSome_iff_exists]
  constructor
  · rintro ⟨w, hw⟩
    obtain ⟨e, he, hek, -⟩ := (lookup_eq_some_iff hv.proper_contents).1 hw
    exact ⟨e, he, hek⟩
  · rintro ⟨e, he, hek⟩
    exact ⟨e.2, (lookup_eq_some_iff hv.proper_contents).2 ⟨e, he, hek, rfl⟩⟩

/-- A present key has its entry in front of those ahead. -/
theorem Ahead.contents_of_present (ha : t.Ahead k es) (hv : Valid h t)
    (hk : (t.get h k).1.isSome = true) :
    ∃ as e, t.contents = as ++ e :: es ∧ e.1.equal k = true := by
  rcases ha with ⟨hnil, -⟩ | ⟨xs, c, ys, hc, hs, rfl⟩
  · obtain ⟨e, he, hek⟩ := hv.present_iff.1 hk
    have hkey := (hv.proper_contents.isKey e he).congr hek
    rw [hkey.1] at hnil
    cases hnil
  · rw [hv.get_of_keyed hc] at hk
    obtain ⟨w, hw⟩ := Option.isSome_iff_exists.1 hk
    have hitem : t.item? c = some (t.cellKey c, w) := by rw [item?, hw]; rfl
    refine ⟨xs.filterMap t.item?, (t.cellKey c, w), ?_, (hv.keyed_cellKey hc.hasCell).equal hc⟩
    rw [contents_eq_items, hs, List.filterMap_append, List.filterMap_cons, hitem]

theorem Valid.cells_after_eq (hv : Valid h t) {xs ys xs' ys' : List Cell}
    (hs : t.cells = xs ++ c :: ys) (hs' : t.cells = xs' ++ c :: ys') : ys = ys' := by
  have hn := (List.nodup_middle.1 (hs ▸ hv.nodup_cells)).notMem
  rw [List.mem_append, not_or] at hn
  exact ((List.append_cons_inj_of_notMem hn.1 hn.2).1 (hs.symm.trans hs')).2.2

theorem cells_split_array {i : Nat} (hi : i < t.array.size) :
    t.cells = (List.range' 0 i).map .array ++ .array i ::
      ((List.range' (i + 1) (t.array.size - (i + 1))).map .array ++ t.order.toList.map .slot) := by
  have hsize : t.array.size = i + (t.array.size - (i + 1) + 1) := by omega
  have hrange := List.range'_append_1 (s := 0) (m := i) (n := t.array.size - (i + 1) + 1)
  rw [Nat.zero_add, List.range'_succ, ← hsize] at hrange
  rw [cells, ← hrange]
  simp

theorem cells_split_slot {i : Nat} {xs ys : List Nat} (hs : t.order.toList = xs ++ i :: ys) :
    t.cells = (List.range' 0 t.array.size).map .array ++ xs.map .slot ++
      .slot i :: ys.map .slot := by
  rw [cells, hs]
  simp

/-- A traversal goes on with the cell after that of the key. -/
theorem Valid.left_of_ahead (hv : Valid h t) (ha : t.Ahead k es) :
    ∃ r, t.resume h k = .ok r ∧ t.Left r es := by
  rcases ha with ⟨hnil, rfl⟩ | ⟨xs, c, ys, hc, hs, rfl⟩
  · exact ⟨.array 0, if_pos hnil, rfl⟩
  have hkey := hc.isKey hv
  cases c with
  | array i =>
    have hindex := (arrayIndex?_eq_some_iff hv.array_size).2 hc
    refine ⟨.array (i + 1), ?_, ?_⟩
    · rw [resume, hkey.1, hindex]
      rfl
    · rw [hv.cells_after_eq hs (cells_split_array hc.1), List.filterMap_append, filterMap_slots,
        List.filterMap_map, Left, displaced_eq]
      rfl
  | slot i =>
    obtain ⟨ws, zs, hzs⟩ := List.append_of_mem ((hv.member i).2 hc.1)
    have hindex : t.arrayIndex? k = none := by
      rw [arrayIndex?_eq_none_iff, ← inArray_congr _ hc.2]
      exact hv.apart i hc.1
    have hfind := (hv.findSlot_eq_some_iff hkey.1).2 hc
    refine ⟨.slot (t.order.next i), ?_, ws ++ [i], zs, ?_, ?_, ?_⟩
    · rw [resume, hkey.1, hindex, hfind]
      rfl
    · rw [hzs, List.append_cons]
    · exact (hv.threads.neighbours hzs).2
    · rw [hv.cells_after_eq hs (cells_split_slot hzs), filterMap_slots]

/-- The next entry is the first of those ahead, and the others are ahead then. -/
theorem Valid.next_of_ahead (hv : Valid h t) (ha : t.Ahead k es) : t.next h k = .ok es.head? := by
  obtain ⟨r, hr, hl⟩ := hv.left_of_ahead ha
  exact hv.next_eq hr hl

theorem Valid.ahead_tail (hv : Valid h t) (ha : t.Ahead k (e :: es)) : t.Ahead e.1 es := by
  obtain ⟨as, hs⟩ := ha.suffix
  have hmem : e ∈ t.contents := by
    rw [hs]
    simp
  exact hv.ahead_of_contents hs (hv.proper_contents.isKey e hmem).equal_self

/-- A cell that gives nothing may go to the end behind the back of a traversal. -/
theorem exists_after_erase_concat {α : Type} {cs xs ys : List Cell} {d : Cell}
    {f : Cell → Option α} (hn : cs.Nodup) (hs : cs = xs ++ c :: ys) (hd : d ≠ c)
    (hf : f d = none) : ∃ xs' ys', cs.erase d ++ [d] = xs' ++ c :: ys' ∧
      ys'.filterMap f = ys.filterMap f := by
  subst hs
  by_cases hx : d ∈ xs
  · refine ⟨xs.erase d, ys ++ [d], ?_, ?_⟩
    · rw [List.erase_append_left _ hx, List.append_assoc]
      rfl
    · rw [List.filterMap_append, List.filterMap_cons, hf, List.filterMap_nil, List.append_nil]
  · refine ⟨xs, ys.erase d ++ [d], ?_, filterMap_erase_concat hn.of_append_right.of_cons hf⟩
    rw [List.erase_append_right _ hx, List.erase_cons_tail (by simpa using hd.symm)]
    simp

theorem Valid.cells_moveToEnd (hv : Valid h t) {i : Nat} (hi : i < t.slots.size) :
    (t.moveToEnd i).cells = t.cells.erase (.slot i) ++ [.slot i] := by
  have hlist : (t.moveToEnd i).order.toList = t.order.toList.erase i ++ [i] :=
    (hv.threads_moveToEnd hi).toList_eq
  have hinj : Function.Injective Cell.slot := fun a b hab => Cell.slot.inj hab
  rw [cells, cells, hlist, List.erase_append_right _ (by simp), List.map_append,
    List.map_erase hinj, List.append_assoc]
  rfl

/-- A look-up of another key leaves what is ahead. -/
theorem Valid.ahead_touch (hv : Valid h t) (ha : t.Ahead k es) (hc : t.HasCell c)
    (hne : (t.read c).isNil = true → ¬t.Keyed c k) : (t.touch c).Ahead k es := by
  cases c with
  | array i => exact ha
  | slot i =>
    rcases ha with ⟨hnil, rfl⟩ | ⟨xs, d, ys, hd, hs, rfl⟩
    · exact .inl ⟨hnil, (hv.touch hc).2.symm⟩
    rw [Table.touch]
    split_ifs with hlive
    · exact .inr ⟨xs, d, ys, hd, hs, rfl⟩
    have hdead : (t.slot i).isLive = false := Bool.not_eq_true _ ▸ hlive
    have hid : Cell.slot i ≠ d := by
      rintro rfl
      exact hne (by simpa [read, Slot.isLive] using hdead) hd
    have hitem : t.item? (.slot i) = none := by rw [item?_slot, slotItem?_of_not_live hdead]
    obtain ⟨xs', ys', hs', hys⟩ := exists_after_erase_concat hv.nodup_cells hs hid hitem
    refine .inr ⟨xs', d, ys', ?_, ?_, hys.symm⟩
    · cases d <;> exact hd
    · rw [hv.cells_moveToEnd (Used.lt_size hc), hs']

def keysWhere (p : Value → Bool) (es : List (Value × Value)) : List Value :=
  (es.map Prod.fst).filter p

theorem Valid.keysWhere_items (hv : Valid h t) {p : Value → Bool}
    (hp : ∀ k, p k = true → (t.get h k).1.isSome = true) {cs : List Cell}
    (hcs : ∀ c ∈ cs, t.HasCell c) :
    keysWhere p (cs.filterMap t.item?) = (cs.map t.cellKey).filter p := by
  rw [keysWhere, List.map_filterMap, List.filter_filterMap, ← List.filterMap_eq_filter,
    List.filterMap_map]
  refine List.filterMap_congr fun c hc => ?_
  have hkeyed := hv.keyed_cellKey (hcs c hc)
  rw [item?, Option.map_map]
  by_cases hpc : p (t.cellKey c) = true
  · have hsome := hp _ hpc
    rw [hv.get_of_keyed hkeyed] at hsome
    obtain ⟨w, hw⟩ := Option.isSome_iff_exists.1 hsome
    simp [hw, hpc]
  · cases (t.read c).present? <;> simp [Option.guard, Option.filter, hpc]

/-- A write neither moves a key nor replaces it, unless the key is absent before or afterwards. -/
theorem Valid.ahead_write (hv : Valid h t) (ha : t.Ahead k es) (hc : t.HasCell c) (v : Value) :
    ∃ es', (t.write c v).Ahead k es' ∧ ∀ p : Value → Bool,
      (∀ q, p q = true →
        (t.get h q).1.isSome = true ∧ ((t.write c v).get h q).1.isSome = true) →
      keysWhere p es' = keysWhere p es := by
  have hv' := hv.write hc v
  have hcells : (t.write c v).cells = t.cells := by
    rw [cells, cells, array_size_write, order_write]
  have hkey : (t.write c v).cellKey = t.cellKey := by
    funext d
    cases d with
    | array i => rfl
    | slot i => exact key_write t c v i
  -- neither side depends on the values, as the cells and their keys are the same in both tables
  have hkeys : ∀ ds : List Cell, (∀ d ∈ ds, d ∈ t.cells) → ∀ p : Value → Bool,
      (∀ q, p q = true →
        (t.get h q).1.isSome = true ∧ ((t.write c v).get h q).1.isSome = true) →
      keysWhere p (ds.filterMap (t.write c v).item?) = keysWhere p (ds.filterMap t.item?) := by
    intro ds hds p hp
    rw [hv.keysWhere_items (fun q hq => (hp q hq).1) fun d hd => hv.mem_cells.1 (hds d hd),
      hv'.keysWhere_items (fun q hq => (hp q hq).2) fun d hd => ?_, hkey]
    rw [← hv'.mem_cells, hcells]
    exact hds d hd
  rcases ha with ⟨hnil, rfl⟩ | ⟨xs, d, ys, hd, hs, rfl⟩
  · refine ⟨_, .inl ⟨hnil, rfl⟩, ?_⟩
    rw [contents_eq_items, contents_eq_items, hcells]
    exact hkeys _ fun d hd => hd
  · refine ⟨_, .inr ⟨xs, d, ys, (keyed_write ..).2 hd, hcells.trans hs, rfl⟩, hkeys ys ?_⟩
    intro c hc
    rw [hs]
    simp [hc]

/-- As long as the key itself is present, what is ahead is known from the contents. -/
theorem Ahead.of_contents (ha : t.Ahead k es) (hv : Valid h t) (hv' : Valid h t')
    (hcontents : t'.contents = t.contents)
    (hk : k.isNil = false → (t.get h k).1.isSome = true) : t'.Ahead k es := by
  cases hnil : k.isNil with
  | true =>
    rcases ha with ⟨-, rfl⟩ | ⟨xs, c, ys, hc, -⟩
    · exact .inl ⟨hnil, hcontents.symm⟩
    · rw [(hc.isKey hv).1] at hnil
      cases hnil
  | false =>
    obtain ⟨as, e, hs, he⟩ := ha.contents_of_present hv (hk hnil)
    exact hv'.ahead_of_contents (hcontents.trans hs) he

theorem Ahead.twin (ha : t.Ahead k es) (ht : Twin t t') : t'.Ahead k es := by
  obtain ⟨n, rfl⟩ := ht.eq_mark
  rcases ha with ⟨hnil, hes⟩ | ⟨xs, c, ys, hc, hs, hes⟩
  · have hcontents : (t.mark n).contents = t.contents := contents_congr rfl rfl rfl
    exact .inl ⟨hnil, hes.trans hcontents.symm⟩
  · have hitem : (t.mark n).item? = t.item? := by
      funext d
      cases d <;> rfl
    refine .inr ⟨xs, c, ys, ?_, hs, hitem ▸ hes⟩
    cases c <;> exact hc

end LuaData.Table
