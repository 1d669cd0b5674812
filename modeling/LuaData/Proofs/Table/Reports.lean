import LuaData.Proofs.Table.Blocks
import LuaData.Proofs.Table.Growth

namespace LuaData

def Outcome.stored {α : Type} (o : Outcome α) (vs : List Value) : List Value :=
  match o.result with
  | .ok _ => vs
  | .error _ => []

theorem Outcome.stored_map {α β : Type} (o : Outcome α) (f : α → β) (vs : List Value) :
    (o.map f).stored vs = o.stored vs := by
  obtain ⟨r, t₁, c₁⟩ := o
  cases r <;> rfl

theorem Outcome.stored_nil {α : Type} (o : Outcome α) : o.stored [] = [] := by
  obtain ⟨r, t₁, c₁⟩ := o
  cases r <;> rfl

namespace Table

open Collector Ledger

variable {h : SeededHash} {t t' t'' : Table} {k v : Value} {c c' c'' : Collector}
  {vs ws : List Value}

def HoldsKey (t : Table) (k : Value) : Prop := ∃ i, t.Used i ∧ (t.slot i).key = k

/-- On the way from `t` to `t'` the values `vs` have been stored. The collector, which it takes from
`c` to `c'`, has heard of them and of every key that is new. -/
def Reports (t : Table) (c : Collector) (t' : Table) (c' : Collector) (vs : List Value) : Prop :=
  ∃ ks, Notes c c' (vs ++ ks) ∧ ∀ k, k.isCollectable = true → t'.HoldsKey k → t.HoldsKey k ∨ k ∈ ks

theorem Reports.mono (hr : Reports t c t' c' vs) (hsub : ws ⊆ vs) : Reports t c t' c' ws := by
  obtain ⟨ks, hn, hk⟩ := hr
  refine ⟨ks, hn.mono fun v hv => ?_, hk⟩
  exact List.mem_append.2 ((List.mem_append.1 hv).imp_left fun hv => hsub hv)

theorem Reports.trans (hr : Reports t c t' c' vs) (hr' : Reports t' c' t'' c'' ws) :
    Reports t c t'' c'' (vs ++ ws) := by
  obtain ⟨ks, hn, hk⟩ := hr
  obtain ⟨ks', hn', hk'⟩ := hr'
  refine ⟨ks ++ ks', (hn.trans hn').mono fun v hv => ?_, fun k hcollectable hheld => ?_⟩
  · simp only [List.mem_append] at hv ⊢
    tauto
  · rcases hk' k hcollectable hheld with hheld | hmem
    · exact (hk k hcollectable hheld).imp_right (List.mem_append_left ks')
    · exact .inr (List.mem_append_right ks hmem)

/-- Where no key is new, the values are all that has to be reported. -/
theorem reports_of_notes (hn : Notes c c' vs)
    (hk : ∀ k, k.isCollectable = true → t'.HoldsKey k → t.HoldsKey k) : Reports t c t' c' vs :=
  ⟨[], by rwa [List.append_nil], fun k hcollectable hheld => .inl (hk k hcollectable hheld)⟩

theorem Reports.refl (t : Table) (c : Collector) : Reports t c t c [] :=
  reports_of_notes (.refl c) fun _ _ => id

theorem holdsKey_congr (hs : t'.slots = t.slots) : t'.HoldsKey k ↔ t.HoldsKey k := by
  simp only [HoldsKey, Used, slot, hs]

theorem Touched.reports (ht : Touched t t') (c : Collector) : Reports t c t' c [] :=
  reports_of_notes (.refl c) fun _ _ => (holdsKey_congr ht.slots_eq.1).1

theorem reports_touch (t : Table) (c : Collector) (cell : Cell) :
    Reports t c (t.touch cell) c [] :=
  reports_of_notes (.refl c) fun _ _ => (holdsKey_congr (slots_touch t cell)).1

theorem reports_write (t : Table) (cell : Cell) (v : Value) (hn : Notes c c' vs) :
    Reports t c (t.write cell v) c' vs := by
  refine reports_of_notes hn fun k _ hheld => ?_
  simpa only [HoldsKey, used_write, key_write] using hheld

/-- A cell comes with the barrier for its key. -/
theorem Inserted.reports {i : Nat} (hi : Inserted h t k i t') (c : Collector) :
    Reports t c t' (c.noteStored .table k) [] := by
  refine ⟨[k], c.notes_noteStored k, fun q _ ⟨j, hj, hq⟩ => ?_⟩
  by_cases hji : j = i
  · subst hji
    exact .inr (List.mem_singleton.2 (hq.symm.trans hi.key))
  · obtain ⟨x, hx, hkey, -⟩ := hi.kept j hji hj
    exact .inl ⟨x, hx, hkey.symm.trans hq⟩

/-- The keys of the new slots are keys of old ones, integers aside. -/
theorem Valid.holdsKey_resize (hv : Valid h t) {a n : Nat} (hcollectable : k.isCollectable = true)
    (hheld : (t.resize h c a n).table.HoldsKey k) : t.HoldsKey k := by
  rcases hv.resize_cases c a n with ⟨e, -, ht⟩ | ⟨hok, hr⟩
  · rwa [ht] at hheld
  obtain ⟨i, hi, rfl⟩ := hheld
  have hitem : (t.resize h c a n).table.slotItem? i = some _ := if_pos (hr.live i hi)
  have hmem := mem_slotEntries.2 ⟨i, (hr.valid.member i).2 hi, hitem⟩
  generalize (t.resize h c a n).table.slot i = x at hmem hcollectable ⊢
  rw [table_resize hok, hv.slotEntries_rebuild (Nat.min_le_right ..) (capacity_eq _)
    ((Nat.le_max_right ..).trans (le_capacity _)), List.mem_filter] at hmem
  rcases List.mem_append.1 hmem.1 with he | he
  · obtain ⟨j, -, -, hj⟩ := mem_displaced.1 he
    have hkey : x.key = .integer (j + 1) := (arrayItem?_eq_some_iff.1 hj).1
    rw [hkey] at hcollectable
    cases hcollectable
  · obtain ⟨j, hj, hitem⟩ := mem_slotEntries.1 he
    exact ⟨j, (hv.member j).1 hj, (slotItem?_eq_some_iff.1 hitem).1.symm⟩

theorem Valid.reports_resize (hv : Valid h t) (c : Collector) (a n : Nat) :
    Reports t c (t.resize h c a n).table (t.resize h c a n).collector [] :=
  reports_of_notes (requested_resize t c a n).notes fun _ => hv.holdsKey_resize

theorem Valid.reports_rehash (hv : Valid h t) (c : Collector) (k : Value) :
    Reports t c (t.rehash h c k).table (t.rehash h c k).collector [] :=
  (reports_of_notes (c.unmoved_log _ _).quiet.notes fun _ _ => id).trans (hv.reports_resize ..)

theorem Valid.reports_create (hv : Valid h t) (hk : k.IsKey) (hnew : t.cell? h k = none)
    (c : Collector) : Reports t c (t.create h c k).table (t.create h c k).collector [] := by
  have hcreated := hv.created hk hnew c
  have hrehash {r : Except TableError Unit} {t₁ : Table} {c₁ : Collector}
      (hins : t.insert? h k = none)
      (hr : ({ t with lastFree := 0 } : Table).rehash h c k = ⟨r, t₁, c₁⟩) :
      Reports t c t₁ c₁ [] := by
    have hreports := (hv.exhausted (hv.full_of_insert?_eq_none hins)).reports_rehash c k
    rw [hr] at hreports
    exact hreports
  generalize t.create h c k = o at hcreated ⊢
  cases hcreated with
  | placed hi => exact hi.reports c
  | refused hins hr => exact hrehash hins hr
  | found hins hr hres hcell => exact (hrehash hins hr).trans (reports_touch ..)
  | regrown hins hr hres hi => exact (hrehash hins hr).trans (hi.reports _)

theorem Valid.reports_cellFor (hv : Valid h t) (c : Collector) (k : Value) :
    Reports t c (t.cellFor h c k).table (t.cellFor h c k).collector [] := by
  unfold cellFor
  cases hk : keyError? k with
  | some e => exact .refl t c
  | none =>
    dsimp only
    cases hcell : t.cell? h k with
    | some cell => exact reports_touch t c cell
    | none => exact hv.reports_create (Value.keyError?_eq_none_iff.1 hk) hcell c

theorem Valid.reports_set (hv : Valid h t) (c : Collector) (k v : Value) :
    Reports t c (t.set h c k v).table (t.set h c k v).collector ((t.set h c k v).stored [v]) := by
  unfold set
  split_ifs with hskip
  · -- nil is no value to report
    have hnote : c.noteStored .table v = c := by
      cases v with
      | nil => rfl
      | _ => simp [Value.isNil] at hskip
    have hn := c.notes_noteStored v
    rw [hnote] at hn
    exact reports_of_notes hn fun _ _ => id
  · have hcell := hv.reports_cellFor c k
    generalize t.cellFor h c k = o at hcell ⊢
    obtain ⟨r, t₁, c₁⟩ := o
    cases r with
    | error e => exact hcell
    | ok cell => exact hcell.trans (reports_write t₁ cell v (c₁.notes_noteStored v))

section Bulk

variable {α : Type} {o : Outcome α}

/-- An operation that goes on where others have stopped. -/
theorem Reports.continued (hr : Reports t c t' c' vs)
    (hr' : Reports t' c' o.table o.collector (o.stored ws)) :
    Reports t c o.table o.collector (o.stored (vs ++ ws)) := by
  have hboth := hr.trans hr'
  obtain ⟨r, t₁, c₁⟩ := o
  cases r with
  | ok x => exact hboth
  | error e => exact hboth.mono (List.nil_subset _)

theorem reports_writeRun (t : Table) (c : Collector) (i : Nat) (values : List Value) :
    Reports t c (t.writeRun c i values).1 (t.writeRun c i values).2 values := by
  induction values generalizing t c i with
  | nil => exact .refl t c
  | cons v vs ih =>
    exact (reports_write t (.array i) v (c.notes_noteStored v)).trans (ih _ _ _)

theorem Valid.reports_setRun (hv : Valid h t) (c : Collector) (n : Nat) (values : List Value) :
    Reports t c (t.setRun h c n values).table (t.setRun h c n values).collector
      ((t.setRun h c n values).stored values) := by
  induction values generalizing t c n with
  | nil => exact .refl t c
  | cons v vs ih =>
    have hset := hv.reports_set c (.integer n) v
    have hp := hv.performs_set c (.integer n) v
    rw [setRun, setInt]
    generalize t.set h c (.integer n) v = o at hset hp ⊢
    obtain ⟨r, t₁, c₁⟩ := o
    cases r with
    | error e => exact hset
    | ok _ =>
      replace hset : Reports t c t₁ c₁ [v] := hset
      exact hset.continued (ih hp.valid c₁ (n + 1))

theorem Valid.reports_storeRun (hv : Valid h t) (c : Collector) {n : Nat} (hn : 1 ≤ n)
    (values : List Value) :
    Reports t c (t.storeRun h c n values).table (t.storeRun h c n values).collector
      ((t.storeRun h c n values).stored values) := by
  unfold storeRun
  dsimp only
  generalize hinside : t.array.size + 1 - n = inside
  have hwrite := reports_writeRun t c (n - 1) (values.take inside)
  have hv₁ := (hv.writeRun c (n - 1) (values.take inside) fun j hj => by
    rw [List.length_take] at hj
    omega).1
  have hboth := hwrite.continued (hv₁.reports_setRun _ (n + inside) (values.drop inside))
  rwa [List.take_append_drop] at hboth

theorem Valid.reports_grownFor (hv : Valid h t) (c : Collector) (first count : Nat) :
    Reports t c (t.grownFor h c first count).table (t.grownFor h c first count).collector [] := by
  unfold Table.grownFor grown
  dsimp only
  split_ifs
  · exact hv.reports_resize ..
  · exact .refl t c

theorem Valid.reports_setList (hv : Valid h t) (c : Collector) (first : Int)
    (values : List Value) :
    Reports t c (t.setList h c first values).table (t.setList h c first values).collector
      ((t.setList h c first values).stored values) := by
  have hlisted := listed_setList h t c first values
  generalize t.setList h c first values = o at hlisted ⊢
  cases hlisted with
  | rejected e => exact .refl t c
  | idle hnil =>
    rw [hnil]
    exact .refl t c
  | refused hfirst hlen hgrown =>
    have hreports := hv.reports_grownFor c first.toNat values.length
    rw [hgrown] at hreports
    exact hreports
  | stored hfirst hlen hgrown =>
    have hv₁ := hv.grownFor c first.toNat values.length
    have hreports := hv.reports_grownFor c first.toNat values.length
    rw [hgrown] at hv₁ hreports
    exact hreports.continued (hv₁.reports_storeRun _ hfirst values)

theorem map_snd_run (first : Int) (values : List Value) :
    (run first values).map Prod.snd = values := by
  induction values generalizing first with
  | nil => rfl
  | cons v vs ih => rw [run_cons, List.map_cons, ih]

end Bulk

theorem Operation.map_snd_made (op : Operation) (o : Outcome Reply) :
    (op.made o).map Prod.snd = o.stored (op.stores.map Prod.snd) := by
  obtain ⟨r, t₁, c₁⟩ := o
  cases r <;> rfl

/-- Every operation but the one that leaves this to its caller reports what it has stored. -/
theorem Valid.reports_apply (hv : Valid h t) (c : Collector) (op : Operation)
    (hop : ∀ k v, op ≠ .setCell k v) :
    Reports t c (op.apply h t c).table (op.apply h t c).collector
      ((op.made (op.apply h t c)).map Prod.snd) := by
  rw [Operation.map_snd_made]
  cases op with
  | set k v =>
    rw [Operation.apply, Outcome.stored_map]
    exact hv.reports_set c k v
  | setInt n v =>
    rw [Operation.apply, Outcome.stored_map]
    exact hv.reports_set c (.integer n) v
  | setCell k v => exact absurd rfl (hop k v)
  | setList first values =>
    rw [Operation.apply, Outcome.stored_map, Operation.stores, map_snd_run]
    exact hv.reports_setList c first values
  | resize a n => exact (Outcome.stored_nil _).symm ▸ hv.reports_resize c a n
  | resizeArray a => exact (Outcome.stored_nil _).symm ▸ hv.reports_resize c a t.slots.size
  | get k => exact (touched_get k).reports c
  | getInt n => exact (touched_getInt n).reports c
  | getStr s => exact (touched_getStr s).reports c
  | next k => exact (Outcome.stored_nil _).symm ▸ .refl t c
  | length => exact touched_length.reports c
  | count fuzzy => exact .refl t c

end Table

end LuaData
