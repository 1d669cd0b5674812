import LuaData.Proofs.Table.Walk
import LuaData.Proofs.Table.Whole

namespace LuaData.Table

variable {h : SeededHash} {s : History} {t t' : Table} {k q : Value} {es : List (Value × Value)}

theorem arrayIndex?_integer (ht : t.array.size ≤ maxArraySize) (n : Int) :
    t.arrayIndex? (.integer n) =
      if 1 ≤ n ∧ n ≤ t.array.size then some (n.toNat - 1) else none := by
  split_ifs with hn
  · obtain ⟨i, rfl⟩ : ∃ i : Nat, n = i + 1 := ⟨n.toNat - 1, by omega⟩
    rw [(arrayIndex?_eq_some_iff ht).2 ⟨by omega, rfl⟩]
    congr 1
  · cases hi : t.arrayIndex? (.integer n) with
    | none => rfl
    | some i =>
      -- an integer beyond the array part does not share its double with one inside
      obtain ⟨hlt, he⟩ := (arrayIndex?_eq_some_iff ht).1 hi
      rw [maxArraySize] at ht
      have hsame : n = i + 1 := Number.eq_of_ofInt_eq (by omega) (Value.number.inj he)
      omega

theorem Threaded.getInt_eq_get {h : StringHash} (ht : Threaded h t) (n : Int) :
    t.getInt h n = t.get h (.integer n) := by
  rw [getInt, get, cell?, arrayIndex?_integer ht.array_size]
  by_cases hn : 1 ≤ n ∧ n ≤ t.array.size
  · rw [if_pos hn, if_pos hn]
  · rw [if_neg hn, if_neg hn]
    rfl

theorem getStr_eq_get {h : StringHash} (t : Table) (s : Str) :
    t.getStr h s = t.get h (.string s) := by
  unfold getStr
  split_ifs with hs
  · simp only [← Value.equal_string hs]
    rfl
  · rfl

theorem Valid.hasInt_eq (hv : Valid h t) (n : Nat) :
    t.hasInt h n = (t.present h (.integer n), (t.get h (.integer n)).2) := by
  rw [hasInt, hv.getInt_eq_get]
  rfl

def lookAll (h : StringHash) (t : Table) (ks : List Value) : Table :=
  ks.foldl (fun t k => (t.get h k).2) t

theorem Valid.looked (hv : Valid h t) (k : Value) : Valid h (t.get h k).2 :=
  ((touched_get k).valid hv).1

theorem Valid.present_get (hv : Valid h t) (k q : Value) :
    (t.get h k).2.present h q = t.present h q :=
  present_eq ((touched_get k).valid hv).2 hv (hv.looked k) q

def halvings (p : Nat → Bool) : Nat → Nat → Nat → List Nat
  | 0, _, _ => []
  | fuel + 1, i, j =>
    if j ≤ i + 1 then []
    else
      let m := (i + j) / 2
      m :: if p m then halvings p fuel m j else halvings p fuel i m

def strides (p : Nat → Bool) : Nat → Nat → List Nat
  | 0, _ => []
  | fuel + 1, i => i :: if p i then strides p fuel (i + 1) else []

def doublings (p : Nat → Bool) (reach : Nat) : Nat → Nat → Nat → List Nat
  | 0, _, _ => []
  | fuel + 1, i, j =>
    j :: if p j then
      if probeLimit < 2 * j then strides p reach 1 else doublings p reach fuel j (2 * j)
    else halvings p (j - i) i j

/-- The integer keys that the search for a border looks up. One that ends in the array part looks
nothing up. -/
def probes (h : StringHash) (t : Table) : List Nat :=
  let size := t.array.size
  if 0 < size ∧ (t.array.getD (size - 1) .nil).isNil then []
  else if t.slots.isEmpty then []
  else doublings (fun n => t.present h (.integer n)) (size + t.slots.size + 1) 32 size (size + 1)

def probeKeys (ns : List Nat) : List Value := ns.map fun n => .integer n

variable {p : Nat → Bool}

theorem Valid.borderBetween_eq (hv : Valid h t) (hp : ∀ n : Nat, t.present h (.integer n) = p n)
    (fuel i j : Nat) :
    (t.borderBetween h fuel i j).2 = t.lookAll h (probeKeys (halvings p fuel i j)) := by
  induction fuel generalizing t i j with
  | zero => rfl
  | succ fuel ih =>
    rw [borderBetween, halvings]
    split_ifs with hle
    · rfl
    have ih := @ih _ (hv.looked (.integer ((i + j) / 2 : Nat))) fun n => by rw [hv.present_get, hp]
    dsimp only
    rw [hv.hasInt_eq, hp]
    cases p ((i + j) / 2)
    · exact ih ..
    · exact ih ..

theorem Valid.lastPresentFrom_eq (hv : Valid h t) (hp : ∀ n : Nat, t.present h (.integer n) = p n)
    (fuel i : Nat) :
    (t.lastPresentFrom h fuel i).2 = t.lookAll h (probeKeys (strides p fuel i)) := by
  induction fuel generalizing t i with
  | zero => rfl
  | succ fuel ih =>
    have ih := @ih _ (hv.looked (.integer i)) fun n => by rw [hv.present_get, hp]
    rw [lastPresentFrom, strides, hv.hasInt_eq, hp]
    cases p i
    · rfl
    · exact ih _

theorem Valid.borderBeyond_eq (hv : Valid h t) (hp : ∀ n : Nat, t.present h (.integer n) = p n)
    (fuel i j : Nat) : (t.borderBeyond h fuel i j).2 =
      t.lookAll h (probeKeys (doublings p (t.array.size + t.slots.size + 1) fuel i j)) := by
  induction fuel generalizing t i j with
  | zero => rfl
  | succ fuel ih =>
    have hv' := hv.looked (.integer j)
    have hp' : ∀ n : Nat, (t.get h (.integer j)).2.present h (.integer n) = p n := fun n => by
      rw [hv.present_get, hp]
    -- a look-up leaves the sizes, which bound the search key by key
    obtain ⟨harray, hslots⟩ : (t.get h (.integer j)).2.array.size = t.array.size ∧
        (t.get h (.integer j)).2.slots.size = t.slots.size := by
      rw [get]
      cases t.cell? h (.integer j) <;> simp [visit]
    have ih := ih hv' hp' j (2 * j)
    rw [harray, hslots] at ih
    rw [borderBeyond, doublings, hv.hasInt_eq, hp]
    cases p j
    · exact hv'.borderBetween_eq hp' ..
    · simp only [harray, hslots]
      split_ifs
      · exact hv'.lastPresentFrom_eq hp' ..
      · exact ih

/-- The search for a border looks its probes up, and does nothing else. -/
theorem Valid.length_eq (hv : Valid h t) :
    (t.length h).2 = t.lookAll h (probeKeys (t.probes h)) := by
  unfold length probes
  dsimp only
  split_ifs
  · rfl
  · rfl
  · exact hv.borderBeyond_eq (fun _ => rfl) ..

/-- The key `k` has a slot, but its entry has been cleared. -/
def Dormant (t : Table) (k : Value) : Prop :=
  ∃ i, t.Keyed (.slot i) k ∧ (t.slot i).isLive = false

theorem keyed_get (q : Value) (c : Cell) (k : Value) :
    (t.get h q).2.Keyed c k ↔ t.Keyed c k := by
  rw [get]
  cases t.cell? h q with
  | none => rfl
  | some d => exact keyed_touch t d c k

theorem slots_get (t : Table) (q : Value) : (t.get h q).2.slots = t.slots := by
  rw [get]
  cases t.cell? h q with
  | none => rfl
  | some c => exact slots_touch t c

theorem dormant_get (q k : Value) : (t.get h q).2.Dormant k ↔ t.Dormant k := by
  simp only [Dormant, keyed_get, slot, slots_get]

/-- A look-up of a cleared key puts it behind all entries. -/
theorem Valid.ahead_get_of_dormant (hv : Valid h t) (hd : t.Dormant k)
    (he : q.equal k = true) : (t.get h q).2.Ahead k [] := by
  obtain ⟨i, hi, hdead⟩ := hd
  have hq : t.Keyed (.slot i) q := hi.congr hv (Value.equal_comm q k ▸ he)
  have htouch : t.touch (.slot i) = t.moveToEnd i := by
    rw [Table.touch, hdead]
    rfl
  rw [get, hv.cell?_eq_some_iff.2 hq, visit, htouch]
  exact .inr ⟨t.cells.erase (.slot i), .slot i, [], hi, hv.cells_moveToEnd hi.1.lt_size, rfl⟩

/-- Other look-ups leave what is ahead. -/
theorem Valid.ahead_get (hv : Valid h t) (ha : t.Ahead k es)
    (hno : ¬(t.Dormant k ∧ q.equal k = true)) : (t.get h q).2.Ahead k es := by
  rw [get]
  cases hcell : t.cell? h q with
  | none => exact ha
  | some c =>
    have hq := hv.cell?_eq_some_iff.1 hcell
    cases c with
    | array i => exact ha
    | slot i =>
      refine hv.ahead_touch ha hq.hasCell fun hnil hk => hno ⟨⟨i, hk, ?_⟩, hq.equal hk⟩
      rw [Slot.isLive, Bool.not_eq_false']
      exact hnil

theorem Valid.ahead_lookAll (hv : Valid h t) (ha : t.Ahead k es) {qs : List Value}
    (hno : ¬(t.Dormant k ∧ ∃ q ∈ qs, q.equal k = true)) : (t.lookAll h qs).Ahead k es := by
  induction qs generalizing t with
  | nil => exact ha
  | cons q qs ih =>
    have hfirst : ¬(t.Dormant k ∧ q.equal k = true) := fun ⟨hd, he⟩ =>
      hno ⟨hd, q, List.mem_cons_self, he⟩
    refine ih (hv.looked q) (hv.ahead_get ha hfirst) fun ⟨hd, q', hq', he⟩ => ?_
    exact hno ⟨(dormant_get q k).1 hd, q', List.mem_cons_of_mem _ hq', he⟩

/-- Once the cleared key is behind all entries, it stays there. -/
theorem Valid.ahead_lookAll_nil (hv : Valid h t) (ha : t.Ahead k []) (qs : List Value) :
    (t.lookAll h qs).Ahead k [] := by
  induction qs generalizing t with
  | nil => exact ha
  | cons q qs ih =>
    refine ih (hv.looked q) ?_
    by_cases hd : t.Dormant k ∧ q.equal k = true
    · exact hv.ahead_get_of_dormant hd.1 hd.2
    · exact hv.ahead_get ha hd

theorem Valid.ahead_lookAll_of_dormant (hv : Valid h t) (hd : t.Dormant k) {qs : List Value}
    (hq : ∃ q ∈ qs, q.equal k = true) : (t.lookAll h qs).Ahead k [] := by
  induction qs generalizing t with
  | nil =>
    obtain ⟨q, hmem, -⟩ := hq
    cases hmem
  | cons q qs ih =>
    by_cases he : q.equal k = true
    · exact (hv.looked q).ahead_lookAll_nil (hv.ahead_get_of_dormant hd he) qs
    · obtain ⟨q', hmem, he'⟩ := hq
      rcases List.mem_cons.1 hmem with rfl | hmem
      · exact absurd he' he
      · exact ih (hv.looked q) ((dormant_get q k).2 hd) ⟨q', hmem, he'⟩

theorem keyed_lookAll (qs : List Value) (c : Cell) (k : Value) :
    (t.lookAll h qs).Keyed c k ↔ t.Keyed c k := by
  induction qs generalizing t with
  | nil => rfl
  | cons q qs ih => exact ih.trans (keyed_get q c k)

theorem Valid.looked_all (hv : Valid h t) (qs : List Value) : Valid h (t.lookAll h qs) := by
  induction qs generalizing t with
  | nil => exact hv
  | cons q qs ih => exact ih (hv.looked q)

/-- A traversal cannot go on after a key that has no cell. -/
theorem Valid.next_of_not_keyed (hv : Valid h t) (hk : k.isNil = false)
    (hno : ∀ c, ¬t.Keyed c k) : t.next h k = .error .invalidNextKey := by
  have hindex : t.arrayIndex? k = none := Option.eq_none_iff_forall_ne_some.2 fun i hi =>
    hno (.array i) ((arrayIndex?_eq_some_iff hv.array_size).1 hi)
  have hfind : t.findSlot h k = none := Option.eq_none_iff_forall_ne_some.2 fun i hi =>
    hno (.slot i) ((hv.findSlot_eq_some_iff hk).1 hi)
  rw [next, resume, hk, hindex, hfind]
  rfl

theorem Valid.ahead_of_keyed (hv : Valid h t) {c : Cell} (hc : t.Keyed c k) :
    ∃ es, t.Ahead k es := by
  obtain ⟨xs, ys, hs⟩ := List.append_of_mem (hv.mem_cells.2 hc.hasCell)
  exact ⟨_, .inr ⟨xs, c, ys, hc, hs, rfl⟩⟩

theorem Valid.next_lookAll (hv : Valid h t) {qs : List Value}
    (hno : ¬(t.Dormant k ∧ ∃ q ∈ qs, q.equal k = true)) :
    (t.lookAll h qs).next h k = t.next h k := by
  have hv' := hv.looked_all qs
  have hahead : ∀ {es}, t.Ahead k es → (t.lookAll h qs).next h k = t.next h k := fun ha => by
    rw [hv.next_of_ahead ha, hv'.next_of_ahead (hv.ahead_lookAll ha hno)]
  by_cases hc : ∃ c, t.Keyed c k
  · obtain ⟨c, hc⟩ := hc
    obtain ⟨es, ha⟩ := hv.ahead_of_keyed hc
    exact hahead ha
  cases hk : k.isNil with
  | true => exact hahead (.inl ⟨hk, rfl⟩)
  | false =>
    have hnone : ∀ c, ¬t.Keyed c k := fun c hkeyed => hc ⟨c, hkeyed⟩
    rw [hv.next_of_not_keyed hk hnone]
    exact hv'.next_of_not_keyed hk fun c => (keyed_lookAll qs c k).not.2 (hnone c)

inductive Look where
  | get (k : Value)
  | getInt (n : Int)
  | getStr (s : Str)
  | length

namespace Look

def run (h : StringHash) (t : Table) : Look → Table
  | get k => (t.get h k).2
  | getInt n => (t.getInt h n).2
  | getStr s => (t.getStr h s).2
  | length => (t.length h).2

def keys (h : StringHash) (t : Table) : Look → List Value
  | get k => [k]
  | getInt n => [.integer n]
  | getStr s => [.string s]
  | length => probeKeys (t.probes h)

end Look

theorem Valid.run_eq (hv : Valid h t) (look : Look) :
    look.run h t = t.lookAll h (look.keys h t) := by
  cases look with
  | get k => rfl
  | getInt n => exact congrArg Prod.snd (hv.getInt_eq_get n)
  | getStr s => exact congrArg Prod.snd (getStr_eq_get t s)
  | length => exact hv.length_eq

/-- After a look-up a traversal goes on as before, unless it goes on after a cleared key and the
look-up has been one of that key. Then it is at its end. -/
theorem Reachable.next_look (hs : Reachable h s) (look : Look) (k : Value) :
    ((s.table.Dormant k ∧ ∃ q ∈ look.keys h s.table, q.equal k = true) →
      (look.run h s.table).next h k = .ok none) ∧
    (¬(s.table.Dormant k ∧ ∃ q ∈ look.keys h s.table, q.equal k = true) →
      (look.run h s.table).next h k = s.table.next h k) := by
  have hv := hs.sound.valid
  rw [hv.run_eq]
  refine ⟨fun ⟨hd, hq⟩ => ?_, hv.next_lookAll⟩
  exact (hv.looked_all _).next_of_ahead (hv.ahead_lookAll_of_dormant hd hq)

/-- A table with three entries in its hash part, of which the two older ones have been cleared. -/
def thinned : History :=
  let c := Collector.new 0 1000
  (History.start .ofContent c 0 4).run .ofContent
    [(.set (.integer 1) (.boolean true), c), (.set (.boolean true) (.boolean true), c),
      (.set (.boolean false) (.boolean true), c), (.set (.integer 1) .nil, c),
      (.set (.boolean true) .nil, c)]

theorem reachable_thinned : Reachable .ofContent thinned :=
  .step _ _ (.step _ _ (.step _ _ (.step _ _ (.step _ _ (.start (by rfl))))))

/-- A traversal that goes on after a cleared key misses an entry if it looks the key up first. -/
theorem look_noticed_thinned :
    Reachable .ofContent thinned ∧
      thinned.table.next .ofContent (.boolean true) =
        .ok (some (.boolean false, .boolean true)) ∧
      ((Look.get (.boolean true)).run .ofContent thinned.table).next .ofContent (.boolean true) =
        .ok none := by
  refine ⟨reachable_thinned, ?_, ?_⟩ <;> decide +kernel

/-- The search for a border looks the first integer up, which has been cleared. The other cleared
key is not looked up. -/
theorem next_look_thinned :
    (thinned.table.Dormant (.integer 1) ∧
      (Look.length.run .ofContent thinned.table).next .ofContent (.integer 1) = .ok none) ∧
    (thinned.table.Dormant (.boolean true) ∧
      (Look.length.run .ofContent thinned.table).next .ofContent (.boolean true) =
        thinned.table.next .ofContent (.boolean true)) := by
  have hkeys : Look.length.keys .ofContent thinned.table = [.integer 1] := by decide +kernel
  have hone : thinned.table.Dormant (.integer 1) :=
    ⟨2, ⟨by decide +kernel, by decide +kernel⟩, by decide +kernel⟩
  have htrue : thinned.table.Dormant (.boolean true) :=
    ⟨1, ⟨by decide +kernel, by decide +kernel⟩, by decide +kernel⟩
  refine ⟨⟨hone, (reachable_thinned.next_look .length (.integer 1)).1 ⟨hone, ?_⟩⟩, htrue,
    (reachable_thinned.next_look .length (.boolean true)).2 fun ⟨_, hq⟩ => ?_⟩
  · exact ⟨.integer 1, by rw [hkeys]; exact List.mem_singleton_self _, by decide +kernel⟩
  · rw [hkeys] at hq
    obtain ⟨q, hmem, he⟩ := hq
    rw [List.mem_singleton.1 hmem] at he
    cases he

end LuaData.Table
