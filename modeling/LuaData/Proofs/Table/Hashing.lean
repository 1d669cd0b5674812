import LuaData.Proofs.Table.Akin

namespace LuaData.Table

variable {h h' : SeededHash} {t t' : Table} {k v : Value}

inductive Offered (h h' : StringHash) : Outcome Cell → Outcome Cell → Prop
  | granted {t t' : Table} {cell cell' : Cell} (c : Collector)
      (hw : ∀ v, v.isNil = false → Akin h h' (t.write cell v) (t'.write cell' v)) :
      Offered h h' ⟨.ok cell, t, c⟩ ⟨.ok cell', t', c⟩
  | refused {t t' : Table} (e : TableError) (c : Collector) (ha : Akin h h' t t') :
      Offered h h' ⟨.error e, t, c⟩ ⟨.error e, t', c⟩

namespace Akin

theorem offered_touch (ha : Akin h h' t t') {cell cell' : Cell} (hc : t.Keyed cell k)
    (hc' : t'.Keyed cell' k) (c : Collector) :
    Offered h h' ⟨.ok cell, t.touch cell, c⟩ ⟨.ok cell', t'.touch cell', c⟩ := by
  rw [ha.left.touch_eq hc.hasCell, ha.right.touch_eq hc'.hasCell]
  exact .granted c fun v hn => ha.write hc hc' hn

theorem create (ha : Akin h h' t t') (hk : k.IsKey) (hnew : t.cell? h k = none)
    (hnew' : t'.cell? h' k = none) (c : Collector) :
    Offered h h' (t.create h c k) (t'.create h' c k) := by
  unfold Table.create
  rcases ha.insert?_cases hk hnew hnew' with ⟨hins, hins'⟩ | ⟨i, i', t₁, t₁', hins, hins', hw⟩
  swap
  · rw [hins, hins']
    exact .granted _ hw
  -- both tables are full, so both are sized anew for the same entries
  have hag := (ha.exhausted hins hins').rehash c k
  rw [hins, hins']
  dsimp only
  generalize ({ t with lastFree := 0 } : Table).rehash h c k = o at hag ⊢
  generalize ({ t' with lastFree := 0 } : Table).rehash h' c k = o' at hag ⊢
  obtain ⟨r, t₁, c₁⟩ := o
  obtain ⟨t₁', rfl, ha₁⟩ := hag.eq
  cases r with
  | error e => exact .refused e c₁ ha₁
  | ok x =>
    dsimp only at ha₁ ⊢
    rcases ha₁.cell?_cases k with ⟨hno, hno'⟩ | ⟨cell, cell', hc, hc', hkeyed, hkeyed'⟩
    · rw [hno, hno']
      rcases ha₁.insert?_cases hk hno hno' with ⟨hi, hi'⟩ | ⟨i, i', t₂, t₂', hi, hi', hw⟩
      · rw [hi, hi']
        exact .refused _ c₁ ha₁
      · rw [hi, hi']
        exact .granted _ hw
    · rw [hc, hc']
      exact ha₁.offered_touch hkeyed hkeyed' c₁

theorem cellFor (ha : Akin h h' t t') (c : Collector) (k : Value) :
    Offered h h' (t.cellFor h c k) (t'.cellFor h' c k) := by
  unfold Table.cellFor
  cases hk : keyError? k with
  | some e => exact .refused e c ha
  | none =>
    dsimp only
    rcases ha.cell?_cases k with ⟨hnew, hnew'⟩ | ⟨cell, cell', hc, hc', hkeyed, hkeyed'⟩
    · rw [hnew, hnew']
      exact ha.create (Value.keyError?_eq_none_iff.1 hk) hnew hnew' c
    · rw [hc, hc']
      exact ha.offered_touch hkeyed hkeyed' c

theorem set (ha : Akin h h' t t') (c : Collector) (k : Value) (hn : v.isNil = false) :
    Agree h h' (t.set h c k v) (t'.set h' c k v) := by
  have hcell := ha.cellFor c k
  unfold Table.set
  simp only [hn, Bool.and_false, Bool.false_eq_true, if_false]
  generalize t.cellFor h c k = o at hcell ⊢
  generalize t'.cellFor h' c k = o' at hcell ⊢
  cases hcell with
  | refused e c ha => exact ⟨rfl, rfl, ha⟩
  | granted c hw => exact ⟨rfl, rfl, hw v hn⟩

theorem setCell (ha : Akin h h' t t') (c : Collector) (k : Value) (hn : v.isNil = false) :
    Agree h h' ((Operation.setCell k v).apply h t c) ((Operation.setCell k v).apply h' t' c) := by
  have hcell := ha.cellFor c k
  rw [Operation.apply, Operation.apply]
  generalize t.cellFor h c k = o at hcell ⊢
  generalize t'.cellFor h' c k = o' at hcell ⊢
  cases hcell with
  | refused e c ha => exact ⟨rfl, rfl, ha⟩
  | granted c hw => exact ⟨rfl, rfl, hw v hn⟩

theorem writeRun (ha : Akin h h' t t') (c : Collector) {i : Nat} {values : List Value}
    (hn : ∀ v ∈ values, v.isNil = false) (hi : i + values.length ≤ t.array.size) :
    Akin h h' (t.writeRun c i values).1 (t'.writeRun c i values).1 ∧
      (t'.writeRun c i values).2 = (t.writeRun c i values).2 := by
  induction values generalizing t t' c i with
  | nil => exact ⟨ha, rfl⟩
  | cons v vs ih =>
    rw [List.length_cons] at hi
    have hkeyed : t.Keyed (.array i) (.integer (i + 1)) := ⟨by omega, rfl⟩
    have hstep := ha.write hkeyed (ha.keyed_array_iff.2 hkeyed) (hn v List.mem_cons_self)
    apply ih hstep (c.noteStored .table v) fun u hu => hn u (List.mem_cons_of_mem v hu)
    rw [array_size_write]
    omega

theorem storeRun (ha : Akin h h' t t') (c : Collector) {n : Nat} {values : List Value}
    (hn : ∀ v ∈ values, v.isNil = false) (hfirst : 1 ≤ n)
    (hlast : n + values.length ≤ t.array.size + 1) :
    Agree h h' (t.storeRun h c n values) (t'.storeRun h' c n values) := by
  obtain ⟨hw, hc⟩ := ha.writeRun c (i := n - 1) hn (by omega)
  rw [Table.storeRun, Table.storeRun, ha.array, List.take_of_length_le (by omega),
    List.drop_eq_nil_of_le (by omega)]
  exact ⟨rfl, hc, hw⟩

theorem grown (ha : Akin h h' t t') (c : Collector) (a n : Nat) :
    Agree h h' (t.grown h c a n) (t'.grown h' c a n) := by
  rw [Table.grown, Table.grown, ha.array, ha.slots_size]
  split_ifs
  · exact ha.resize c a n
  · exact ⟨rfl, rfl, ha⟩

end Akin

/-- A run that may end in the array part makes the array part reach to its end. -/
theorem le_bulkArraySize {first last : Nat} (hfirst : first ≤ last) (hlast : last ≤ maxArraySize) :
    last ≤ t.bulkArraySize first last := by
  unfold bulkArraySize
  split_ifs <;> omega

theorem bulkOverflow_eq_zero {size first last : Nat} (hfirst : first ≤ last) (hlast : last ≤ size) :
    bulkOverflow size first last = 0 := by
  unfold bulkOverflow
  split_ifs <;> omega

theorem Valid.array_size_grown (hv : Valid h t) (c : Collector) {a n : Nat} (hle : a ≤ maxArraySize)
    (hsize : t.array.size ≤ a) (hok : (t.grown h c a n).result = .ok ()) :
    (t.grown h c a n).table.array.size = a := by
  unfold grown at hok ⊢
  split_ifs at hok ⊢ with hgrow
  · rcases hv.resize_cases c a n with ⟨e, he, -⟩ | ⟨-, hr⟩
    · rw [hok] at he
      cases he
    · rw [hr.array_size, Nat.min_eq_left hle]
  · dsimp only
    omega

namespace Akin

theorem setList (ha : Akin h h' t t') (c : Collector) {first : Int} {values : List Value}
    (hn : ∀ v ∈ values, v.isNil = false)
    (hlast : first + values.length - 1 ≤ maxArraySize) :
    Agree h h' (t.setList h c first values) (t'.setList h' c first values) := by
  unfold Table.setList
  split_ifs with hlow hempty hcount
  · exact ⟨rfl, rfl, ha⟩
  · exact ⟨rfl, rfl, ha⟩
  · exact ⟨rfl, rfl, ha⟩
  have hpos : 0 < values.length := List.length_pos_iff.2 fun hnil => hempty (by rw [hnil]; rfl)
  obtain ⟨n, rfl⟩ : ∃ n : Nat, first = n := ⟨first.toNat, by omega⟩
  have hrun : n ≤ n + values.length - 1 := by omega
  have hreach : n + values.length - 1 ≤ t.bulkArraySize n (n + values.length - 1) :=
    le_bulkArraySize hrun (by omega)
  have harray : t'.bulkArraySize n (n + values.length - 1) =
      t.bulkArraySize n (n + values.length - 1) := by rw [bulkArraySize, bulkArraySize, ha.array]
  have hhash (t : Table) : t.bulkHashSize 0 = t.slots.size := if_pos rfl
  have hbounds := bulkArraySize_bounds ha.left.valid.array_size n (n + values.length - 1)
  -- the array part takes the whole run, and the hash part stays as large as it is
  simp only [Int.toNat_natCast, harray, bulkOverflow_eq_zero hrun hreach, hhash, ha.slots_size]
  generalize t.bulkArraySize n (n + values.length - 1) = a at hbounds hreach ⊢
  have hag := ha.grown c a t.slots.size
  have hsize := ha.left.valid.array_size_grown c (n := t.slots.size) hbounds.2 hbounds.1
  unfold Table.grown at hag hsize
  rw [ha.slots_size] at hag
  generalize (if t.array.size < a ∨ t.slots.size < t.slots.size then
    t.resize h c a t.slots.size else ⟨.ok (), t, c⟩) = o at hag hsize ⊢
  generalize (if t'.array.size < a ∨ t.slots.size < t.slots.size then
    t'.resize h' c a t.slots.size else ⟨.ok (), t', c⟩) = o' at hag ⊢
  obtain ⟨r, t₁, c₁⟩ := o
  obtain ⟨t₁', rfl, ha₁⟩ := hag.eq
  cases r with
  | error e => exact ⟨rfl, rfl, ha₁⟩
  | ok x =>
    have hsize₁ : t₁.array.size = a := hsize rfl
    dsimp only at ha₁
    exact ha₁.storeRun c₁ hn (by omega) (by omega)

theorem look {α : Type} (ha : Akin h h' t t') {p p' : α × Table} (hp : p'.1 = p.1)
    (ht : Touched t p.2) (ht' : Touched t' p'.2) (f : α → Reply) (c : Collector) :
    Agree h h' ⟨.ok (f p.1), p.2, c⟩ ⟨.ok (f p'.1), p'.2, c⟩ := by
  rw [hp, ha.left.eq_of_touched ht, ha.right.eq_of_touched ht']
  exact ⟨rfl, rfl, ha⟩

end Akin

/-- The operation takes nothing out of a table, and a run of values ends where an array part may
end. -/
def Operation.keeps : Operation → Bool
  | set _ v | setInt _ v | setCell _ v => !v.isNil
  | setList first values =>
    (values.all fun v => !v.isNil) && decide (first + values.length - 1 ≤ maxArraySize)
  | _ => true

theorem Akin.apply (ha : Akin h h' t t') (c : Collector) {op : Operation} (hop : op.keeps = true) :
    Agree h h' (op.apply h t c) (op.apply h' t' c) := by
  cases op with
  | set k v => exact (ha.set c k (Bool.not_eq_true' _ ▸ hop)).map _
  | setInt n v => exact (ha.set c _ (Bool.not_eq_true' _ ▸ hop)).map _
  | setCell k v => exact ha.setCell c k (Bool.not_eq_true' _ ▸ hop)
  | setList first values =>
    simp only [Operation.keeps, Bool.and_eq_true, List.all_eq_true, Bool.not_eq_true',
      decide_eq_true_eq] at hop
    exact (ha.setList c hop.1 hop.2).map _
  | resize a n => exact (ha.resize c a n).map _
  | resizeArray a =>
    rw [Operation.apply, Operation.apply, resizeArray, resizeArray, ha.slots_size]
    exact (ha.resize c a t.slots.size).map _
  | get k => exact ha.look (ha.get_eq k) (touched_get k) (touched_get k) .value c
  | getInt n => exact ha.look (ha.getInt_eq n) (touched_getInt n) (touched_getInt n) .value c
  | getStr s => exact ha.look (ha.getStr_eq s) (touched_getStr s) (touched_getStr s) .value c
  | next k =>
    rw [Operation.apply, Operation.apply, ha.next_eq]
    exact ⟨rfl, rfl, ha⟩
  | length => exact ha.look ha.length_eq touched_length touched_length .number c
  | count fuzzy =>
    rw [Operation.apply, Operation.apply, ha.count_eq]
    exact ⟨rfl, rfl, ha⟩

/-- What an operation lets others see: its answer, the sizes of the parts, and the collector with
the calls that have reached it. -/
structure Sight where
  result : Except TableError Reply
  arraySize : Nat
  hashSize : Nat
  collector : Collector

def sights (h : StringHash) (t : Table) (c : Collector) : List Operation → List Sight
  | [] => []
  | op :: ops =>
    let o := op.apply h t c
    ⟨o.result, o.table.array.size, o.table.slots.size, o.collector⟩ ::
      o.table.sights h o.collector ops

theorem Akin.sights_eq (ha : Akin h h' t t') (c : Collector) {ops : List Operation}
    (hops : ∀ op ∈ ops, op.keeps = true) : t'.sights h' c ops = t.sights h c ops := by
  induction ops generalizing t t' c with
  | nil => rfl
  | cons op ops ih =>
    -- the tables stay akin, and the collector is the same one for what follows
    have hag := ha.apply c (hops op List.mem_cons_self)
    have hrest := ih hag.table (op.apply h t c).collector fun op' hop =>
      hops op' (List.mem_cons_of_mem op hop)
    rw [sights, sights, hag.result, hag.collector, hag.table.array, hag.table.slots_size, hrest]

/-- As long as nothing is taken out of a table and no run of values goes beyond the array part,
nobody can tell how its strings are hashed: the answers, the sizes of the parts and the calls that
reach the collector are the same under any two hashes. -/
theorem sights_eq_of_keeps (h h' : SeededHash) (c : Collector) {ops : List Operation}
    (hops : ∀ op ∈ ops, op.keeps = true) : empty.sights h' c ops = empty.sights h c ops :=
  (Akin.empty h h').sights_eq c hops

def colliding : SeededHash := { apply := fun _ => 0, congr := fun _ _ _ => rfl }

def spelling : List Operation :=
  let a := Value.string ⟨0, 0, [97]⟩
  let b := Value.string ⟨0, 1, [98]⟩
  let d := Value.string ⟨0, 2, [100]⟩
  [.set a (.integer 1), .set b a, .set d b, .setList 1 [a, b, d], .getStr ⟨0, 1, [98]⟩, .length,
    .next (.integer 3), .next a, .next b, .next d]

/-- Under the two hashes the entries are in different slots, which does not show. -/
theorem sights_eq_of_keeps_spelling :
    let c := Collector.new 0 1000
    let slots := fun h => ((History.start h c 0 0).run h (spelling.map (·, c))).table.slots
    slots .ofContent ≠ slots colliding ∧ (∀ op ∈ spelling, op.keeps = true) ∧
      empty.sights colliding c spelling = empty.sights .ofContent c spelling := by
  intro c slots
  have hkeeps : ∀ op ∈ spelling, op.keeps = true := by decide +kernel
  exact ⟨by decide +kernel, hkeeps, sights_eq_of_keeps .ofContent colliding c hkeeps⟩

end LuaData.Table
