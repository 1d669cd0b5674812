import LuaData.Proofs.Table.Run

namespace LuaData.Table

variable {h : SeededHash} {t t' : Table} {k : Value}

@[simp] theorem metatable_touch (t : Table) (cell : Cell) :
    (t.touch cell).metatable = t.metatable := by
  obtain ⟨o, ho⟩ := touch_eq t cell
  rw [ho]

@[simp] theorem metatable_write (t : Table) (cell : Cell) (v : Value) :
    (t.write cell v).metatable = t.metatable := by
  cases cell <;> rfl

theorem Touched.metatable_eq (ht : Touched t t') : t'.metatable = t.metatable := by
  induction ht with
  | refl => rfl
  | touch cell _ _ ih => exact (metatable_touch ..).trans ih

theorem metatable_makeRoom (t : Table) (i free : Nat) :
    (t.makeRoom h i free).2.metatable = t.metatable := by
  unfold makeRoom
  dsimp only
  split <;> rfl

theorem metatable_insert? {i : Nat} (hins : t.insert? h k = some (i, t')) :
    t'.metatable = t.metatable := by
  obtain ⟨⟨j, t₁⟩, hplace, heq⟩ := Option.map_eq_some_iff.1 hins
  cases heq
  have hplaced : t₁.metatable = t.metatable := by
    unfold place? at hplace
    cases hhome : t.home? h k with
    | none => simp [hhome] at hplace
    | some x =>
      simp only [hhome] at hplace
      split_ifs at hplace
      · obtain ⟨free, -, heq⟩ := Option.map_eq_some_iff.1 hplace
        have hroom := metatable_makeRoom (h := h) { t with lastFree := free } x free
        rw [heq] at hroom
        exact hroom
      · cases hplace
        rfl
  exact hplaced

theorem metatable_reinsert (t : Table) (e : Value × Value) :
    (t.reinsert h e).metatable = t.metatable := by
  unfold reinsert
  split
  · exact metatable_write ..
  · split
    · rename_i hins
      exact (metatable_write ..).trans (metatable_insert? hins)
    · rfl

theorem metatable_rebuild (t : Table) (a n : Nat) :
    (t.rebuild h a n).metatable = t.metatable := by
  have hfold : ∀ (es : List (Value × Value)) (t : Table),
      (es.foldl (reinsert h) t).metatable = t.metatable := fun es => by
    induction es with
    | nil => exact fun _ => rfl
    | cons e es ih => exact fun t => (ih _).trans (metatable_reinsert t e)
  exact hfold ..

theorem metatable_resize (t : Table) (c : Collector) (a n : Nat) :
    (t.resize h c a n).table.metatable = t.metatable := by
  unfold resize
  dsimp only
  split
  · rfl
  · split
    · rfl
    · exact metatable_rebuild ..

theorem metatable_create (t : Table) (c : Collector) (k : Value) :
    (t.create h c k).table.metatable = t.metatable := by
  unfold create
  split
  · rename_i hins
    exact metatable_insert? hins
  have hrehash : (({ t with lastFree := 0 } : Table).rehash h c k).table.metatable = t.metatable :=
    metatable_resize ..
  generalize ({ t with lastFree := 0 } : Table).rehash h c k = o at hrehash ⊢
  obtain ⟨r, t₁, c₁⟩ := o
  cases r with
  | error e => exact hrehash
  | ok _ =>
    dsimp only at hrehash ⊢
    split
    · exact (metatable_touch ..).trans hrehash
    · split
      · rename_i hins
        exact (metatable_insert? hins).trans hrehash
      · exact hrehash

theorem metatable_cellFor (t : Table) (c : Collector) (k : Value) :
    (t.cellFor h c k).table.metatable = t.metatable := by
  unfold cellFor
  split
  · rfl
  · split
    · exact metatable_touch ..
    · exact metatable_create ..

theorem metatable_set (t : Table) (c : Collector) (k v : Value) :
    (t.set h c k v).table.metatable = t.metatable := by
  unfold set
  split
  · rfl
  · have hcell := metatable_cellFor (h := h) t c k
    generalize t.cellFor h c k = o at hcell ⊢
    obtain ⟨r, t₁, c₁⟩ := o
    cases r with
    | error e => exact hcell
    | ok cell => exact (metatable_write ..).trans hcell

theorem metatable_writeRun (t : Table) (c : Collector) (i : Nat) (values : List Value) :
    (t.writeRun c i values).1.metatable = t.metatable := by
  induction values generalizing t c i with
  | nil => rfl
  | cons v vs ih => exact (ih ..).trans (metatable_write ..)

theorem metatable_setRun (t : Table) (c : Collector) (n : Nat) (values : List Value) :
    (t.setRun h c n values).table.metatable = t.metatable := by
  induction values generalizing t c n with
  | nil => rfl
  | cons v vs ih =>
    have hset := metatable_set (h := h) t c (.integer n) v
    rw [setRun, setInt]
    generalize t.set h c (.integer n) v = o at hset ⊢
    obtain ⟨r, t₁, c₁⟩ := o
    cases r with
    | error e => exact hset
    | ok _ => exact (ih ..).trans hset

theorem metatable_grownFor (t : Table) (c : Collector) (first count : Nat) :
    (t.grownFor h c first count).table.metatable = t.metatable := by
  unfold grownFor grown
  dsimp only
  split
  · exact metatable_resize ..
  · rfl

theorem metatable_setList (t : Table) (c : Collector) (first : Int) (values : List Value) :
    (t.setList h c first values).table.metatable = t.metatable := by
  have hlisted := listed_setList h t c first values
  generalize t.setList h c first values = o at hlisted ⊢
  cases hlisted with
  | rejected e => rfl
  | idle hnil => rfl
  | refused hfirst hlen hgrown =>
    have hkept := metatable_grownFor (h := h) t c first.toNat values.length
    rw [hgrown] at hkept
    exact hkept
  | stored hfirst hlen hgrown =>
    have hkept := metatable_grownFor (h := h) t c first.toNat values.length
    rw [hgrown] at hkept
    exact ((metatable_setRun ..).trans (metatable_writeRun ..)).trans hkept

/-- An operation leaves the metatable. -/
theorem metatable_apply (t : Table) (c : Collector) (op : Operation) :
    (op.apply h t c).table.metatable = t.metatable := by
  cases op with
  | set k v => exact metatable_set ..
  | setInt n v => exact metatable_set ..
  | setCell k v =>
    have hcell := metatable_cellFor (h := h) t c k
    rw [Operation.apply]
    generalize t.cellFor h c k = o at hcell ⊢
    obtain ⟨r, t₁, c₁⟩ := o
    cases r with
    | error e => exact hcell
    | ok cell => exact (metatable_write ..).trans hcell
  | setList first values => exact metatable_setList ..
  | resize a n => exact metatable_resize ..
  | resizeArray a => exact metatable_resize ..
  | get k => exact (touched_get k).metatable_eq
  | getInt n => exact (touched_getInt n).metatable_eq
  | getStr s => exact (touched_getStr s).metatable_eq
  | next k => rfl
  | length => exact touched_length.metatable_eq
  | count fuzzy => rfl

end LuaData.Table
