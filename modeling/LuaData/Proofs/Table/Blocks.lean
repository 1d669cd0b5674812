import LuaData.Proofs.Replay
import LuaData.Proofs.Table.Atomicity
import Mathlib.Tactic.Abel

namespace LuaData.Table

open Collector

variable {h : SeededHash} {t t' t'' : Table} {k v : Value} {c c' c'' : Collector}

def parts (t : Table) : Multiset (Block × Nat) :=
  part .arrayPart t.array.size + part .hashPart t.slots.size

/-- The way from `t` to `t'` is known to the collector, which it takes from `c` to `c'`. The hash
part does not grow beyond its bound. -/
structure Settles (t : Table) (c : Collector) (t' : Table) (c' : Collector) : Prop where
  moves : Moves c c' t.parts t'.parts
  slots_size : t.slots.size ≤ maxHashSize → t'.slots.size ≤ maxHashSize

theorem Settles.trans (h₁ : Settles t c t' c') (h₂ : Settles t' c' t'' c'') :
    Settles t c t'' c'' :=
  ⟨h₁.moves.trans h₂.moves, fun hs => h₂.slots_size (h₁.slots_size hs)⟩

/-- Parts that keep their sizes are the same blocks. -/
theorem Settles.of_idle (hc : Idle c c') (ha : t'.array.size = t.array.size)
    (hs : t'.slots.size = t.slots.size) : Settles t c t' c' where
  moves := by
    have hparts : t'.parts = t.parts := by rw [parts, parts, ha, hs]
    rw [hparts]
    exact hc _
  slots_size hle := hs.trans_le hle

theorem Settles.refl (t : Table) (c : Collector) : Settles t c t c := .of_idle (.refl c) rfl rfl

theorem settles_touch (t : Table) (c : Collector) (cell : Cell) : Settles t c (t.touch cell) c :=
  .of_idle (.refl c) (by rw [array_touch]) (by rw [slots_touch])

theorem Touched.settles (ht : Touched t t') (c : Collector) : Settles t c t' c := by
  induction ht with
  | refl => exact .refl t c
  | touch cell _ _ ih => exact ih.trans (settles_touch _ c cell)

theorem settles_write (t : Table) (cell : Cell) (v : Value) (hc : Idle c c') :
    Settles t c (t.write cell v) c' :=
  .of_idle hc (array_size_write ..) (slots_size_write ..)

section Parts

variable {held : Multiset (Block × Nat)} {a n : Nat}

/-- A part that has no elements is not given back either. -/
theorem moves_freePart (c : Collector) (b : Block) (n : Nat) (held : Multiset (Block × Nat)) :
    Moves c (if n = 0 then c else c.free b n) (part b n + held) held := by
  unfold part
  split_ifs
  · rw [zero_add]
    exact Idle.refl c held
  · exact c.moves_free b n held

theorem alloc_hashPart_cases (c : Collector) (n : Nat) :
    (∃ c', (if n = 0 then (true, c) else c.alloc .hashPart n) = (true, c') ∧
      ∀ held, Moves c c' held (part .hashPart n + held)) ∨
      ∃ c', (if n = 0 then (true, c) else c.alloc .hashPart n) = (false, c') ∧ Idle c c' := by
  by_cases hn : n = 0
  · rw [if_pos hn, hn]
    refine .inl ⟨c, rfl, fun held => ?_⟩
    rw [part, if_pos rfl, zero_add]
    exact Idle.refl c held
  · rw [if_neg hn]
    rcases c.alloc_cases .hashPart n with ⟨c', hc, h⟩ | ⟨c', hc, h⟩
    · refine .inl ⟨c', hc, fun held => ?_⟩
      rw [part, if_neg hn]
      exact h.moves_alloc held
    · exact .inr ⟨c', hc, h.idle⟩

theorem ne_arrayPart {n : Nat} {x : Block × Nat} (hx : x ∈ part .hashPart n) :
    x.1 ≠ .arrayPart := by
  unfold part at hx
  split_ifs at hx
  · exact absurd hx (Multiset.notMem_zero x)
  · rw [Multiset.mem_singleton.1 hx]
    exact Block.noConfusion

/-- Either both parts are granted, the old hash part being held until the new one is in use, or the
blocks are those from before. -/
theorem requestParts_cases (t : Table) (c : Collector) (a n : Nat) :
    (∃ c', t.requestParts c a n = (true, c') ∧
      Moves c c' t.parts (part .hashPart t.slots.size + (part .arrayPart a + part .hashPart n))) ∨
      ∃ c', t.requestParts c a n = (false, c') ∧ Moves c c' t.parts t.parts := by
  unfold requestParts
  rcases alloc_hashPart_cases c n with ⟨c₁, hc₁, hm₁⟩ | ⟨c₁, hc₁, hidle⟩
  swap
  · rw [hc₁]
    exact .inr ⟨c₁, rfl, hidle _⟩
  rw [hc₁]
  dsimp only
  rw [Bool.not_true, if_neg Bool.false_ne_true]
  have hhash := hm₁ t.parts
  by_cases ha : a = t.array.size
  · rw [if_pos ha]
    refine .inl ⟨c₁, rfl, ?_⟩
    have hheld : part .hashPart n + t.parts =
        part .hashPart t.slots.size + (part .arrayPart a + part .hashPart n) := by
      rw [parts, ha]
      abel
    rwa [← hheld]
  rw [if_neg ha]
  have hrest : ∀ x ∈ part .hashPart t.slots.size + part .hashPart n, x.1 ≠ .arrayPart := fun x hx =>
    (Multiset.mem_add.1 hx).elim ne_arrayPart ne_arrayPart
  have hheld : part .hashPart n + t.parts = part .arrayPart t.array.size +
      (part .hashPart t.slots.size + part .hashPart n) := by
    rw [parts]
    abel
  rcases c₁.realloc_cases .arrayPart t.array.size a with ⟨c₂, hc₂, h⟩ | ⟨c₂, hc₂, h⟩ <;> rw [hc₂]
  · refine .inl ⟨c₂, rfl, ?_⟩
    rw [hheld] at hhash
    rw [add_left_comm]
    exact hhash.trans (h.moves_realloc hrest)
  · exact .inr ⟨_, rfl, (hhash.trans (h.idle _)).trans (moves_freePart c₂ .hashPart n _)⟩

end Parts

/-- The sizes of hash parts that may be asked for. -/
theorem capacity_le {n : Nat} (hn : n ≤ maxHashSize) : capacity n ≤ maxHashSize := by
  unfold capacity
  split_ifs with h0 h1
  · exact Nat.zero_le _
  · decide
  · have hlog : (n - 1).log2 < 30 := (Nat.log2_lt (by omega)).2 (by
      rw [maxHashSize] at hn
      omega)
    rw [maxHashSize, Nat.one_shiftLeft, Nat.one_shiftLeft]
    exact Nat.pow_le_pow_right (by omega) hlog

theorem idle_noteKeys (c : Collector) (es : List (Value × Value)) : Idle c (noteKeys c es) := by
  induction es generalizing c with
  | nil => exact .refl c
  | cons e es ih => exact (c.idle_noteStored .table e.1).trans (ih _)

/-- A resize tells the collector of both parts. -/
theorem Valid.settles_resize (hv : Valid h t) (c : Collector) (a n : Nat) :
    Settles t c (t.resize h c a n).table (t.resize h c a n).collector := by
  have hcases := hv.resize_cases c a n
  unfold resize at hcases ⊢
  dsimp only at hcases ⊢
  split at hcases
  · rename_i hlt
    rw [if_pos hlt]
    exact .refl t c
  rename_i hle
  rw [if_neg hle]
  generalize min a maxArraySize = a, max n _ = n at *
  rcases t.requestParts_cases c a (capacity n) with ⟨c₁, hc₁, hm₁⟩ | ⟨c₁, hc₁, hm₁⟩ <;>
    rw [hc₁] at hcases ⊢
  · rcases hcases with ⟨e, he, -⟩ | ⟨-, hr⟩
    · cases he
    dsimp only at hr
    have hparts : (t.rebuild h a (capacity n)).parts =
        part .arrayPart a + part .hashPart (capacity n) := by
      rw [parts, hr.array_size, hr.slots_size]
    -- the old hash part is given back when the new parts are filled
    have hfreed := moves_freePart (noteKeys c₁ (t.entriesToMove a)) .hashPart t.slots.size
      (part .arrayPart a + part .hashPart (capacity n))
    refine ⟨?_, fun _ => ?_⟩
    · rw [hparts]
      simp only [Array.isEmpty_iff_size_eq_zero]
      exact (hm₁.trans (idle_noteKeys c₁ _ _)).trans hfreed
    · rw [hr.slots_size]
      exact capacity_le (Nat.not_lt.1 hle)
  · exact ⟨hm₁, id⟩

theorem Valid.settles_rehash (hv : Valid h t) (c : Collector) (k : Value) :
    Settles t c (t.rehash h c k).table (t.rehash h c k).collector :=
  (Settles.of_idle (c.idle_log _ _) rfl rfl).trans (hv.settles_resize ..)

theorem Inserted.settles {i : Nat} (hi : Inserted h t k i t') (c : Collector) :
    Settles t c t' (c.noteStored .table k) :=
  .of_idle (c.idle_noteStored .table k) (by rw [hi.array]) hi.size

theorem Valid.settles_create (hv : Valid h t) (hk : k.IsKey) (hnew : t.cell? h k = none)
    (c : Collector) : Settles t c (t.create h c k).table (t.create h c k).collector := by
  have hcreated := hv.created hk hnew c
  have hrehash {r : Except TableError Unit} {t₁ : Table} {c₁ : Collector}
      (hins : t.insert? h k = none)
      (hr : ({ t with lastFree := 0 } : Table).rehash h c k = ⟨r, t₁, c₁⟩) :
      Settles t c t₁ c₁ := by
    have hs := (hv.exhausted (hv.full_of_insert?_eq_none hins)).settles_rehash c k
    rw [hr] at hs
    exact ⟨hs.moves, hs.slots_size⟩
  generalize t.create h c k = o at hcreated ⊢
  cases hcreated with
  | placed hi => exact hi.settles c
  | refused hins hr => exact hrehash hins hr
  | found hins hr hres hcell => exact (hrehash hins hr).trans (settles_touch _ _ _)
  | regrown hins hr hres hi => exact (hrehash hins hr).trans (hi.settles _)

theorem Valid.settles_cellFor (hv : Valid h t) (c : Collector) (k : Value) :
    Settles t c (t.cellFor h c k).table (t.cellFor h c k).collector := by
  unfold cellFor
  cases hk : keyError? k with
  | some e => exact .refl t c
  | none =>
    dsimp only
    cases hcell : t.cell? h k with
    | some cell => exact settles_touch t c cell
    | none => exact hv.settles_create (Value.keyError?_eq_none_iff.1 hk) hcell c

theorem Valid.settles_set (hv : Valid h t) (c : Collector) (k v : Value) :
    Settles t c (t.set h c k v).table (t.set h c k v).collector := by
  unfold set
  split_ifs
  · exact .refl t c
  · have hcell := hv.settles_cellFor c k
    generalize t.cellFor h c k = o at hcell ⊢
    obtain ⟨r, t₁, c₁⟩ := o
    cases r with
    | error e => exact hcell
    | ok cell => exact hcell.trans (settles_write t₁ cell v (c₁.idle_noteStored .table v))

theorem settles_writeRun (t : Table) (c : Collector) (i : Nat) (values : List Value) :
    Settles t c (t.writeRun c i values).1 (t.writeRun c i values).2 := by
  induction values generalizing t c i with
  | nil => exact .refl t c
  | cons v vs ih =>
    exact (settles_write t (.array i) v (c.idle_noteStored .table v)).trans (ih _ _ _)

theorem Valid.settles_setRun (hv : Valid h t) (c : Collector) (n : Nat) (values : List Value) :
    Settles t c (t.setRun h c n values).table (t.setRun h c n values).collector := by
  induction values generalizing t c n with
  | nil => exact .refl t c
  | cons v vs ih =>
    have hset := hv.settles_set c (.integer n) v
    have hp := hv.performs_set c (.integer n) v
    rw [setRun, setInt]
    generalize t.set h c (.integer n) v = o at hset hp ⊢
    obtain ⟨r, t₁, c₁⟩ := o
    cases r with
    | error e => exact hset
    | ok _ => exact hset.trans (ih hp.valid c₁ (n + 1))

theorem Valid.settles_storeRun (hv : Valid h t) (c : Collector) {n : Nat} (hn : 1 ≤ n)
    (values : List Value) :
    Settles t c (t.storeRun h c n values).table (t.storeRun h c n values).collector := by
  unfold storeRun
  dsimp only
  generalize hinside : t.array.size + 1 - n = inside
  have hwrite := settles_writeRun t c (n - 1) (values.take inside)
  have hv₁ := (hv.writeRun c (n - 1) (values.take inside) fun j hj => by
    rw [List.length_take] at hj
    omega).1
  exact hwrite.trans (hv₁.settles_setRun _ _ _)

theorem Valid.settles_grownFor (hv : Valid h t) (c : Collector) (first count : Nat) :
    Settles t c (t.grownFor h c first count).table (t.grownFor h c first count).collector := by
  unfold Table.grownFor grown
  dsimp only
  split_ifs
  · exact hv.settles_resize ..
  · exact .refl t c

theorem Valid.settles_setList (hv : Valid h t) (c : Collector) (first : Int)
    (values : List Value) :
    Settles t c (t.setList h c first values).table (t.setList h c first values).collector := by
  have hlisted := listed_setList h t c first values
  generalize t.setList h c first values = o at hlisted ⊢
  cases hlisted with
  | rejected e => exact .refl t c
  | idle hnil => exact .refl t c
  | refused hfirst hlen hgrown =>
    have hsettles := hv.settles_grownFor c first.toNat values.length
    rw [hgrown] at hsettles
    exact hsettles
  | stored hfirst hlen hgrown =>
    have hv₁ := hv.grownFor c first.toNat values.length
    have hsettles := hv.settles_grownFor c first.toNat values.length
    rw [hgrown] at hv₁ hsettles
    exact hsettles.trans (hv₁.settles_storeRun _ hfirst values)

/-- Whatever an operation does to the parts, the collector is told. -/
theorem Valid.settles_apply (hv : Valid h t) (c : Collector) (op : Operation) :
    Settles t c (op.apply h t c).table (op.apply h t c).collector := by
  cases op with
  | set k v => exact hv.settles_set c k v
  | setInt n v => exact hv.settles_set c (.integer n) v
  | setCell k v =>
    have hcell := hv.settles_cellFor c k
    rw [Operation.apply]
    generalize t.cellFor h c k = o at hcell ⊢
    obtain ⟨r, t₁, c₁⟩ := o
    cases r with
    | error e => exact hcell
    | ok cell => exact hcell.trans (settles_write t₁ cell v (.refl c₁))
  | setList first values => exact hv.settles_setList c first values
  | resize a n => exact hv.settles_resize c a n
  | resizeArray a => exact hv.settles_resize c a t.slots.size
  | get k => exact (touched_get k).settles c
  | getInt n => exact (touched_getInt n).settles c
  | getStr s => exact (touched_getStr s).settles c
  | next k => exact .refl t c
  | length => exact touched_length.settles c
  | count fuzzy => exact .refl t c

/-- What may happen to a table and its collector. Strings are made for keys and values. -/
inductive Action where
  | operate (op : Operation)
  | setMetatable (meta? : Option ObjectId)
  | createString (bytes : List UInt8)

/-- A table with its collector, and the bytes that the strings made meanwhile have taken. -/
structure Account where
  table : Table
  collector : Collector
  strings : Int

namespace Account

def start (h : StringHash) (c : Collector) (arraySize hashSize : Nat) : Account :=
  let o := withCapacity h c arraySize hashSize
  ⟨o.table, o.collector, 0⟩

def step (h : StringHash) (s : Account) : Action → Account
  | .operate op =>
    let o := op.apply h s.table s.collector
    { s with table := o.table, collector := o.collector }
  | .setMetatable meta? =>
    let (t, c) := s.table.setMetatable s.collector meta?
    { s with table := t, collector := c }
  | .createString bytes =>
    let c := (s.collector.createString bytes).2
    { s with collector := c, strings := s.strings + (c.total - s.collector.total) }

def run (h : StringHash) (s : Account) (actions : List Action) : Account :=
  actions.foldl (step h) s

structure Sound (h : StringHash) (c : Collector) (s : Account) : Prop where
  valid : Valid h s.table
  slots_size : s.table.slots.size ≤ maxHashSize
  events : ∃ es, s.collector.events.toList = c.events.toList ++ es ∧
    replay? 0 es = some s.table.parts
  total : s.collector.total = c.total + s.strings + weight s.table.parts

variable {s : Account}

theorem Sound.settles (hs : s.Sound h c) (hv : Valid h t')
    (h' : Settles s.table s.collector t' c') :
    Sound h c { s with table := t', collector := c' } where
  valid := hv
  slots_size := h'.slots_size hs.slots_size
  events := by
    obtain ⟨es, he, hr⟩ := hs.events
    obtain ⟨es', he', hr'⟩ := h'.moves.events
    refine ⟨es ++ es', by rw [he', he, List.append_assoc], ?_⟩
    rw [replay?_append, hr]
    exact hr'
  total := by
    have ht := hs.total
    have ht' := h'.moves.total
    dsimp only
    omega

theorem Sound.step (hs : s.Sound h c) (a : Action) : (s.step h a).Sound h c := by
  cases a with
  | operate op =>
    exact hs.settles (hs.valid.performs_apply s.collector op).valid (hs.valid.settles_apply _ op)
  | setMetatable meta? =>
    refine hs.settles (hs.valid.setMetatable s.collector meta?) (.of_idle ?_ rfl rfl)
    cases meta? with
    | none => exact .refl _
    | some o => exact fun held => (s.collector.called_barrier _ _).moves rfl (Int.zero_add _)
  | createString bytes =>
    obtain ⟨es, he, hr⟩ := hs.events
    obtain ⟨es', he', hr'⟩ := s.collector.events_createString bytes
    refine ⟨hs.valid, hs.slots_size, ⟨es ++ es', ?_, ?_⟩, ?_⟩
    · rw [Account.step, he', he, List.append_assoc]
    · rw [replay?_append, hr]
      exact hr' _
    · have ht := hs.total
      dsimp only [Account.step]
      omega

theorem sound_start (h : SeededHash) (c : Collector) (a n : Nat) : (start h c a n).Sound h c := by
  have hs : Sound h c ⟨empty, c, 0⟩ := by
    refine ⟨valid_empty, Nat.zero_le _, ⟨[], (List.append_nil _).symm, rfl⟩, ?_⟩
    exact ((Int.add_zero _).trans (Int.add_zero _)).symm
  unfold start withCapacity
  split_ifs
  · exact hs
  · exact hs.settles (valid_empty.performs_resize c a n).valid (valid_empty.settles_resize c a n)

theorem Sound.run (hs : s.Sound h c) (actions : List Action) : (s.run h actions).Sound h c := by
  induction actions generalizing s with
  | nil => exact hs
  | cons a actions ih => exact ih (hs.step a)

end Account

/-- Releasing a table gives its blocks back. -/
theorem moves_release (t : Table) (c : Collector) : Moves c (t.release c) t.parts 0 := by
  unfold release
  simp only [Array.isEmpty_iff_size_eq_zero]
  have harray := moves_freePart c .arrayPart t.array.size (part .hashPart t.slots.size)
  have hhash := moves_freePart (if t.array.size = 0 then c else c.free .arrayPart t.array.size)
    .hashPart t.slots.size 0
  rw [add_zero] at hhash
  exact harray.trans hhash

theorem weight_parts (ha : t.array.size ≤ maxArraySize) (hn : t.slots.size ≤ maxHashSize) :
    weight t.parts = 16 * t.array.size + 56 * t.slots.size := by
  rw [maxArraySize] at ha
  rw [maxHashSize] at hn
  rw [parts, weight_add, weight_part, weight_part]
  simp only [Block.bytes, Block.elementSize, Block.byteLimit]
  omega

/-- Whatever a table goes through, and whether or not its operations are granted, the calls made for
it leave outstanding one block for each of its parts that is not empty, of the size that the part
has: every change of a block names the size that it had before, and only outstanding blocks are
freed. So the bytes of the parts are accounted for, strings aside, and none are left when the table
is released. -/
theorem Account.replay_run (h : SeededHash) (c : Collector) (a n : Nat) (actions : List Action) :
    let s := (start h c a n).run h actions
    let released := s.table.release s.collector
    (∃ es, s.collector.events.toList = c.events.toList ++ es ∧ replay? 0 es =
      some (part .arrayPart s.table.array.size + part .hashPart s.table.slots.size)) ∧
    s.collector.total =
      c.total + s.strings + (16 * s.table.array.size + 56 * s.table.slots.size : Nat) ∧
    (∃ es, released.events.toList = s.collector.events.toList ++ es ∧
      replay? (part .arrayPart s.table.array.size + part .hashPart s.table.slots.size) es =
        some 0) ∧
    released.total = c.total + s.strings := by
  intro s released
  have hs : s.Sound h c := (sound_start h c a n).run actions
  have hrelease := s.table.moves_release s.collector
  refine ⟨hs.events, ?_, hrelease.events, ?_⟩
  · rw [hs.total, weight_parts hs.valid.array_size hs.slots_size]
  · have ht := hs.total
    have ht' : released.total + weight s.table.parts = s.collector.total + weight 0 :=
      hrelease.total
    have hzero : weight 0 = 0 := rfl
    omega

end LuaData.Table
