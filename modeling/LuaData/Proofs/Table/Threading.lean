import LuaData.Proofs.Table.Atomicity

namespace LuaData.Table

variable {h : StringHash} {s : History} {t : Table} {k : Value} {c : Collector}

theorem Threaded.reinsert (ht : Threaded h t) {e : Value × Value} (hk : e.1.IsKey) :
    Threaded h (t.reinsert h e) := by
  unfold Table.reinsert
  cases hcell : t.cell? h e.1 with
  | some cell => exact ht.write (cell?_hasCell hcell).used e.2
  | none =>
    cases hins : t.insert? h e.1 with
    | none => exact ht
    | some it =>
      have ha := ht.admitted hk (inArray_of_cell?_eq_none hcell) hins
      exact ha.threaded.write (HasCell.used (c := .slot it.1) (ha.used hk)) e.2

theorem Threaded.isKey_entriesToMove (ht : Threaded h t) (a : Nat) :
    ∀ e ∈ t.entriesToMove a, e.1.IsKey := by
  intro e he
  rcases List.mem_append.1 he with he | he
  · obtain ⟨i, -, -, he⟩ := mem_displaced.1 he
    rw [(arrayItem?_eq_some_iff.1 he).1]
    exact Value.isKey_integer _
  · obtain ⟨i, hi, he⟩ := mem_slotEntries.1 he
    rw [(slotItem?_eq_some_iff.1 he).1]
    exact ht.chained.isKey i ((ht.member i).1 hi)

theorem Threaded.rebuild (ht : Threaded h t) {a n : Nat} (ha : a ≤ maxArraySize)
    (hn : n = 0 ∨ ∃ m, n = 2 ^ m) : Threaded h (t.rebuild h a n) := by
  have hfold : ∀ es : List (Value × Value), (∀ e ∈ es, e.1.IsKey) →
      ∀ u, Threaded h u → Threaded h (es.foldl (Table.reinsert h) u) := fun es => by
    induction es with
    | nil => exact fun _ _ hu => hu
    | cons e es ih =>
      intro hes u hu
      exact ih (fun e' he => hes e' (List.mem_cons_of_mem e he)) _
        (hu.reinsert (hes e List.mem_cons_self))
  exact hfold _ (ht.isKey_entriesToMove a) _ (threaded_bare h t ha hn)

theorem Threaded.resize (ht : Threaded h t) (c : Collector) (a n : Nat) :
    Threaded h (t.resize h c a n).table := by
  unfold Table.resize
  dsimp only
  split
  · exact ht
  · split
    · exact ht
    · exact ht.rebuild (Nat.min_le_right ..) (capacity_eq _)

/-- The table is threaded, and a cell that was answered is one of its cells. -/
structure Supplies (h : StringHash) (o : Outcome Cell) : Prop where
  threaded : Threaded h o.table
  hasCell : ∀ cell, o.result = .ok cell → o.table.HasCell cell

theorem Threaded.supplies_ok (ht : Threaded h t) {cell : Cell} (hc : t.HasCell cell)
    (c : Collector) : Supplies h ⟨.ok cell, t, c⟩ :=
  ⟨ht, fun cell' hcell => by cases hcell; exact hc⟩

theorem Threaded.supplies_error (ht : Threaded h t) (e : TableError) (c : Collector) :
    Supplies h ⟨.error e, t, c⟩ := ⟨ht, fun cell hcell => by cases hcell⟩

theorem Threaded.supplies_touch (ht : Threaded h t) {cell : Cell} (hc : t.HasCell cell)
    (c : Collector) : Supplies h ⟨.ok cell, t.touch cell, c⟩ := by
  refine (ht.touch hc).supplies_ok ?_ c
  cases cell with
  | array i =>
    rw [HasCell, array_touch]
    exact hc
  | slot i =>
    rw [HasCell, Used, slot, slots_touch]
    exact hc

theorem Threaded.supplies_create (ht : Threaded h t) (hk : k.IsKey) (hnew : t.cell? h k = none)
    (c : Collector) : Supplies h (t.create h c k) := by
  have hplaced : ∀ {u : Table} {it : Nat × Table} (c : Collector), Threaded h u →
      u.cell? h k = none → u.insert? h k = some it → Supplies h ⟨.ok (.slot it.1), it.2, c⟩ := by
    intro u it c hu hnew hins
    have ha := hu.admitted hk (inArray_of_cell?_eq_none hnew) hins
    have hc : it.2.HasCell (.slot it.1) := ha.used hk
    exact ha.threaded.supplies_ok hc c
  unfold Table.create
  split
  · rename_i hins
    exact hplaced _ ht hnew hins
  · rename_i hins
    have hrehash : Threaded h (({ t with lastFree := 0 } : Table).rehash h c k).table :=
      (ht.exhausted (ht.full_of_insert?_eq_none hins)).resize _ _ _
    generalize ({ t with lastFree := 0 } : Table).rehash h c k = o at hrehash
    obtain ⟨r, u, c'⟩ := o
    cases r with
    | error e => exact hrehash.supplies_error e c'
    | ok _ =>
      dsimp only at hrehash ⊢
      split
      · rename_i cell hcell
        exact hrehash.supplies_touch (cell?_hasCell hcell) c'
      · rename_i hcell
        split
        · rename_i hins
          exact hplaced _ hrehash hcell hins
        · exact hrehash.supplies_error _ c'

theorem Threaded.supplies_cellFor (ht : Threaded h t) (c : Collector) (k : Value) :
    Supplies h (t.cellFor h c k) := by
  unfold Table.cellFor
  cases hk : keyError? k with
  | some e => exact ht.supplies_error e c
  | none =>
    dsimp only
    cases hcell : t.cell? h k with
    | some cell => exact ht.supplies_touch (cell?_hasCell hcell) c
    | none => exact ht.supplies_create (Value.keyError?_eq_none_iff.1 hk) hcell c

theorem Supplies.write {cell : Cell} {t : Table} (hs : Supplies h ⟨.ok cell, t, c⟩) (v : Value) :
    Threaded h (t.write cell v) := hs.threaded.write (hs.hasCell cell rfl).used v

theorem Threaded.set (ht : Threaded h t) (c : Collector) (k v : Value) :
    Threaded h (t.set h c k v).table := by
  unfold Table.set
  split_ifs
  · exact ht
  · have hs := ht.supplies_cellFor c k
    generalize t.cellFor h c k = o at hs
    obtain ⟨r, u, c'⟩ := o
    cases r with
    | error e => exact hs.threaded
    | ok cell => exact hs.write v

theorem Threaded.writeRun (ht : Threaded h t) (c : Collector) (i : Nat) (values : List Value) :
    Threaded h (t.writeRun c i values).1 := by
  induction values generalizing t c i with
  | nil => exact ht
  | cons v vs ih => exact ih (ht.write (fun _ hc => by cases hc) v) _ _

theorem Threaded.setRun (ht : Threaded h t) (c : Collector) (n : Nat) (values : List Value) :
    Threaded h (t.setRun h c n values).table := by
  induction values generalizing t c n with
  | nil => exact ht
  | cons v vs ih =>
    have hset : Threaded h (t.setInt h c n v).table := ht.set c _ v
    rw [Table.setRun]
    generalize t.setInt h c n v = o at hset
    obtain ⟨r, u, c'⟩ := o
    cases r with
    | error e => exact hset
    | ok _ => exact ih hset c' (n + 1)

theorem Threaded.setList (ht : Threaded h t) (c : Collector) (first : Int) (values : List Value) :
    Threaded h (t.setList h c first values).table := by
  have hgrown : ∀ first count, Threaded h (t.grownFor h c first count).table := by
    intro first count
    unfold Table.grownFor grown
    dsimp only
    split_ifs
    · exact ht.resize c _ _
    · exact ht
  have hlisted := listed_setList h t c first values
  generalize t.setList h c first values = o at hlisted
  cases hlisted with
  | rejected e => exact ht
  | idle hnil => exact ht
  | refused hfirst hlen heq => exact heq ▸ hgrown _ _
  | stored hfirst hlen heq =>
    have hu := hgrown first.toNat values.length
    rw [heq] at hu
    exact (hu.writeRun _ _ _).setRun _ _ _

theorem Threaded.apply (ht : Threaded h t) (c : Collector) (op : Operation) :
    Threaded h (op.apply h t c).table := by
  cases op with
  | set k v => exact ht.set c k v
  | setInt n v => exact ht.set c _ v
  | setCell k v =>
    have hs := ht.supplies_cellFor c k
    rw [Operation.apply]
    generalize t.cellFor h c k = o at hs
    obtain ⟨r, u, c'⟩ := o
    cases r with
    | ok cell => exact hs.write v
    | error e => exact hs.threaded
  | setList first values => exact ht.setList c first values
  | resize a n => exact ht.resize c a n
  | resizeArray a => exact ht.resize c a _
  | get k => exact (touched_get k).threaded ht
  | getInt n => exact (touched_getInt n).threaded ht
  | getStr s => exact (touched_getStr s).threaded ht
  | next k => exact ht
  | length => exact touched_length.threaded ht
  | count fuzzy => exact ht

theorem threaded_empty (h : StringHash) : Threaded h empty :=
  threaded_bare h empty (Nat.zero_le _) (.inl rfl)

/-- Every table that a program can have is threaded, whichever seeds its strings were made under. -/
theorem Reachable.threaded (hs : Reachable h s) : Threaded h s.table := by
  induction hs with
  | @start c a n _ =>
    rw [History.start, withCapacity]
    split_ifs
    · exact threaded_empty h
    · exact (threaded_empty h).resize c a n
  | step op c _ ih => exact ih.apply c op
  | setMetatable c meta? _ ih => exact ih.setMetatable c meta?

end LuaData.Table
