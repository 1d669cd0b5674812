import LuaData.Proofs.Table.Resize

namespace LuaData.Table

open Ledger

variable {h : SeededHash} {t t' : Table} {k v : Value} {c : Collector}

/-- The cell of `k` is found or made, and the entries stay what they are. -/
structure Provides (h : StringHash) (t : Table) (k : Value) (o : Outcome Cell) : Prop where
  valid : Valid h o.table
  matches_contents : Matches o.table.contents t.contents
  keyed : ∀ cell, o.result = .ok cell → o.table.Keyed cell k ∧ o.table.Ready cell

structure Performs {α : Type} (h : StringHash) (t : Table) (log : List (Value × Value))
    (o : Outcome α) : Prop where
  valid : Valid h o.table
  isKey : ∀ x, o.result = .ok x → ∀ e ∈ log, e.1.IsKey
  done : ∀ x, o.result = .ok x → Matches o.table.contents (t.contents.storeAll log)
  failed : ∀ e, o.result = .error e → Matches o.table.contents t.contents

theorem Threaded.used_of_full {h : StringHash} (ht : Threaded h t)
    (hfull : t.order.toList.length = t.slots.size) {i : Nat} (hi : i < t.slots.size) :
    t.Used i := by
  have hcount := ht.countP_isFree
  rw [hfull, Nat.add_eq_right, List.countP_eq_zero] at hcount
  exact (Bool.not_eq_true _).mp (hcount i (List.mem_range.2 hi))

theorem Threaded.exhausted {h : StringHash} (ht : Threaded h t)
    (hfull : t.order.toList.length = t.slots.size) : Threaded h { t with lastFree := 0 } where
  array_size := ht.array_size
  lastFree_le := Nat.zero_le _
  chained := ht.chained.lastFree 0
  links := ht.links
  threads := ht.threads
  member := ht.member
  apart := ht.apart
  full _ _ hlt := ht.used_of_full hfull hlt

theorem Valid.exhausted (hv : Valid h t) (hfull : t.order.toList.length = t.slots.size) :
    Valid h { t with lastFree := 0 } where
  toThreaded := hv.toThreaded.exhausted hfull
  distinct := hv.distinct.congr fun _ => rfl

theorem Inserted.provides {i : Nat} (hi : Inserted h t k i t') (hk : k.IsKey) (c : Collector) :
    Provides h t k ⟨.ok (.slot i), t', c⟩ where
  valid := hi.valid
  matches_contents := by
    rw [← hi.contents]
    exact matches_refl hi.valid.proper_contents
  keyed cell hcell := by
    cases hcell
    exact ⟨hi.keyed hk, hi.ready⟩

theorem Valid.provides_touch (hv : Valid h t) {cell : Cell} (hc : t.Keyed cell k)
    (c : Collector) : Provides h t k ⟨.ok cell, t.touch cell, c⟩ := by
  obtain ⟨hv', he⟩ := hv.touch hc.hasCell
  refine ⟨hv', he ▸ matches_refl hv'.proper_contents, fun cell' hcell => ?_⟩
  cases hcell
  exact ⟨(keyed_touch ..).2 hc, hv.ready_touch hc.hasCell⟩

theorem Provides.of_matches {o : Outcome Cell} (hp : Provides h t' k o)
    (hm : Matches t'.contents t.contents) : Provides h t k o :=
  ⟨hp.valid, hp.matches_contents.trans hm, hp.keyed⟩

theorem Resized.insert?_eq_some {a n : Nat} (hr : Resized h t a n t')
    (hroom : inArray a k = false → t.overflowCount a < n) (hnew : t'.cell? h k = none) :
    ∃ it, t'.insert? h k = some it := by
  have hout := (hr.valid.new_key hnew).1
  rw [hr.array_size] at hout
  have hlt := hr.used_le.trans_lt (hroom hout)
  cases hins : t'.insert? h k with
  | some it => exact ⟨it, rfl⟩
  | none =>
    rw [hr.valid.full_of_insert?_eq_none hins, hr.slots_size] at hlt
    exact absurd hlt (Nat.lt_irrefl _)

/-- The ways in which a key without a cell gets one. -/
inductive Created (h : StringHash) (t : Table) (k : Value) (c : Collector) : Outcome Cell → Prop
  | placed {i : Nat} {t' : Table} (hi : Inserted h t k i t') :
      Created h t k c ⟨.ok (.slot i), t', c.noteStored .table k⟩
  | refused {e : TableError} {c' : Collector} (hins : t.insert? h k = none)
      (hr : ({ t with lastFree := 0 } : Table).rehash h c k =
        ⟨.error e, { t with lastFree := 0 }, c'⟩) :
      Created h t k c ⟨.error e, { t with lastFree := 0 }, c'⟩
  | found {t₁ : Table} {c₁ : Collector} {a n : Nat} {cell : Cell} (hins : t.insert? h k = none)
      (hr : ({ t with lastFree := 0 } : Table).rehash h c k = ⟨.ok (), t₁, c₁⟩)
      (hres : Resized h { t with lastFree := 0 } a n t₁) (hcell : t₁.Keyed cell k) :
      Created h t k c ⟨.ok cell, t₁.touch cell, c₁⟩
  | regrown {t₁ t₂ : Table} {c₁ : Collector} {a n i : Nat} (hins : t.insert? h k = none)
      (hr : ({ t with lastFree := 0 } : Table).rehash h c k = ⟨.ok (), t₁, c₁⟩)
      (hres : Resized h { t with lastFree := 0 } a n t₁) (hi : Inserted h t₁ k i t₂) :
      Created h t k c ⟨.ok (.slot i), t₂, c₁.noteStored .table k⟩

theorem create_of_insert? {i : Nat} (hins : t.insert? h k = some (i, t')) (c : Collector) :
    t.create h c k = ⟨.ok (.slot i), t', c.noteStored .table k⟩ := by
  rw [create, hins]

/-- Where there is no room, the parts are sized anew, once. That is refused, or the key has a cell
then, or room for one. -/
theorem Valid.create_of_full (hv : Valid h t) (hk : k.IsKey) (hins : t.insert? h k = none)
    (c : Collector) :
    (∃ e c', ({ t with lastFree := 0 } : Table).rehash h c k =
        ⟨.error e, { t with lastFree := 0 }, c'⟩ ∧
      t.create h c k = ⟨.error e, { t with lastFree := 0 }, c'⟩) ∨
    ∃ t₁ c₁ a n, ({ t with lastFree := 0 } : Table).rehash h c k = ⟨.ok (), t₁, c₁⟩ ∧
      Resized h { t with lastFree := 0 } a n t₁ ∧
      ((∃ cell, t₁.Keyed cell k ∧ t.create h c k = ⟨.ok cell, t₁.touch cell, c₁⟩) ∨
        ∃ i t₂, t₁.insert? h k = some (i, t₂) ∧ Inserted h t₁ k i t₂ ∧
          t.create h c k = ⟨.ok (.slot i), t₂, c₁.noteStored .table k⟩) := by
  have hr := (hv.exhausted (hv.full_of_insert?_eq_none hins)).rehash_cases c k
  unfold create
  rw [hins]
  dsimp only
  cases heq : ({ t with lastFree := 0 } : Table).rehash h c k with
  | mk r t₁ c₁ =>
    rw [heq] at hr
    rcases hr with ⟨e, rfl, rfl⟩ | ⟨rfl, a, n, hres, hroom⟩
    · exact .inl ⟨e, c₁, rfl, rfl⟩
    refine .inr ⟨t₁, c₁, a, n, rfl, hres, ?_⟩
    dsimp only at hres ⊢
    cases hcell : t₁.cell? h k with
    | some cell => exact .inl ⟨cell, hres.valid.cell?_eq_some_iff.1 hcell, rfl⟩
    | none =>
      obtain ⟨⟨i, t₂⟩, hins'⟩ := hres.insert?_eq_some hroom hcell
      rw [hins']
      exact .inr ⟨i, t₂, rfl, hres.valid.inserted hk hcell hins', rfl⟩

theorem Valid.created (hv : Valid h t) (hk : k.IsKey) (hnew : t.cell? h k = none)
    (c : Collector) : Created h t k c (t.create h c k) := by
  cases hins : t.insert? h k with
  | some it =>
    rw [create_of_insert? hins]
    exact .placed (hv.inserted hk hnew hins)
  | none =>
    rcases hv.create_of_full hk hins c with ⟨e, c', hr, ho⟩ |
      ⟨t₁, c₁, a, n, hr, hres, ⟨cell, hcell, ho⟩ | ⟨i, t₂, -, hi, ho⟩⟩ <;> rw [ho]
    · exact .refused hins hr
    · exact .found hins hr hres hcell
    · exact .regrown hins hr hres hi

/-- Where slots are looked for makes no difference to the entries. -/
theorem Valid.provides_create (hv : Valid h t) (hk : k.IsKey) (hnew : t.cell? h k = none)
    (c : Collector) : Provides h t k (t.create h c k) := by
  have hcreated := hv.created hk hnew c
  have hcontents : ({ t with lastFree := 0 } : Table).contents = t.contents :=
    contents_congr rfl rfl rfl
  have hm₀ : Matches ({ t with lastFree := 0 } : Table).contents t.contents := by
    rw [hcontents]
    exact matches_refl hv.proper_contents
  generalize t.create h c k = o at hcreated
  cases hcreated with
  | placed hi => exact hi.provides hk _
  | refused hins hr =>
    refine ⟨hv.exhausted (hv.full_of_insert?_eq_none hins), hm₀, fun cell hcell => ?_⟩
    cases hcell
  | found hins hr hres hcell =>
    exact (hres.valid.provides_touch hcell _).of_matches (hres.matches_contents.trans hm₀)
  | regrown hins hr hres hi =>
    exact (hi.provides hk _).of_matches (hres.matches_contents.trans hm₀)

/-- A cell is provided for every value that may be a key, unless there is no memory for it. -/
theorem Valid.provides_cellFor (hv : Valid h t) (c : Collector) (k : Value) :
    Provides h t k (t.cellFor h c k) := by
  unfold cellFor
  cases hk : keyError? k with
  | some e =>
    exact ⟨hv, matches_refl hv.proper_contents, fun cell hcell => by cases hcell⟩
  | none =>
    dsimp only
    cases hcell : t.cell? h k with
    | some cell => exact hv.provides_touch (hv.cell?_eq_some_iff.1 hcell) c
    | none => exact hv.provides_create (Value.keyError?_eq_none_iff.1 hk) hcell c

theorem Valid.performs_ok {α : Type} {log : List (Value × Value)} (hv : Valid h t')
    (hk : ∀ e ∈ log, e.1.IsKey) (hm : Matches t'.contents (t.contents.storeAll log)) (x : α)
    (c : Collector) : Performs h t log ⟨.ok x, t', c⟩ where
  valid := hv
  isKey _ _ := hk
  done _ _ := hm
  failed _ he := by cases he

theorem Valid.performs_error {α : Type} (hv : Valid h t') (hm : Matches t'.contents t.contents)
    (log : List (Value × Value)) (e : TableError) (c : Collector) :
    Performs h t log (⟨.error e, t', c⟩ : Outcome α) where
  valid := hv
  isKey _ hx := by cases hx
  done _ hx := by cases hx
  failed _ _ := hm

theorem Provides.performs_write {α : Type} {o : Outcome Cell} (hp : Provides h t k o) {cell : Cell}
    (ho : o.result = .ok cell) (v : Value) (x : α) (c : Collector) :
    Performs h t [(k, v)] ⟨.ok x, o.table.write cell v, c⟩ := by
  obtain ⟨hkeyed, hready⟩ := hp.keyed cell ho
  have hk := hkeyed.isKey hp.valid
  apply (hp.valid.write hkeyed.hasCell v).performs_ok
  · intro e he
    rw [List.mem_singleton.1 he]
    exact hk
  · exact (hp.valid.matches_write hkeyed hready v).trans (hp.matches_contents.store v hk)

theorem Valid.performs_set (hv : Valid h t) (c : Collector) (k v : Value) :
    Performs h t [(k, v)] (t.set h c k v) := by
  unfold set
  split_ifs with hskip
  · -- nil is stored under an absent key, so nothing has to be done
    simp only [Bool.and_eq_true, Option.isNone_iff_eq_none] at hskip
    obtain ⟨⟨hk, hcell⟩, hnil⟩ := hskip
    have habsent : ¬∃ w, t.contents.Holds k w := by
      rintro ⟨w, hw⟩
      obtain ⟨cell, hc, -⟩ := hv.holds_contents.1 hw
      exact hv.cell?_eq_none_iff.1 hcell cell hc
    have hstore : t.contents.storeAll [(k, v)] = t.contents := store_nil_absent hnil habsent
    apply hv.performs_ok
    · intro e he
      rw [List.mem_singleton.1 he]
      exact Value.keyError?_eq_none_iff.1 hk
    · rw [hstore]
      exact matches_refl hv.proper_contents
  · have hp := hv.provides_cellFor c k
    generalize t.cellFor h c k = o at hp
    obtain ⟨r, t₁, c₁⟩ := o
    cases r with
    | error e => exact hp.valid.performs_error hp.matches_contents _ e c₁
    | ok cell => exact hp.performs_write rfl v () _

theorem Valid.performs_resize (hv : Valid h t) (c : Collector) (a n : Nat) :
    Performs h t [] (t.resize h c a n) := by
  have hcases := hv.resize_cases c a n
  generalize t.resize h c a n = o at hcases
  obtain ⟨r, t₁, c₁⟩ := o
  rcases hcases with ⟨e, rfl, rfl⟩ | ⟨rfl, hr⟩
  · exact hv.performs_error (matches_refl hv.proper_contents) [] e c₁
  · exact hr.valid.performs_ok (fun _ he => absurd he List.not_mem_nil) hr.matches_contents () c₁

end LuaData.Table
