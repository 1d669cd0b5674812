import LuaData.Proofs.Table.Batch
import LuaData.Proofs.Table.Looking
import LuaData.Proofs.Table.Threading

namespace LuaData.Table

open Ledger

variable {h : SeededHash} {s : History} {t t' : Table} {k : Value} {first n : Int}
  {values : List Value}

/-- A search that goes on for longer comes to the same, as it ends with the chain. -/
theorem Threaded.search_eq_of_le {h : StringHash} (ht : Threaded h t) (k : Value)
    (p : Slot → Bool) {fuel : Nat} (hfuel : t.slots.size ≤ fuel) :
    (t.home? h k).bind (t.follow p fuel) = t.search h k p := by
  rw [search]
  cases hhome : t.home? h k with
  | none => rfl
  | some i =>
    obtain ⟨rank, hrank⟩ := ht.chained.ranked
    exact ht.chained.follow_eq_of_le hrank p (home?_lt hhome) (card_ahead_le t rank i) hfuel

/-- A look-up that ends at a cleared entry finds nothing, and puts its slot at the end of the
order. -/
theorem Threaded.get_of_cleared {h : StringHash} (ht : Threaded h t) {i : Nat}
    (hcell : t.cell? h k = some (.slot i)) (hdead : (t.slot i).isLive = false) :
    t.get h k = (none, t.moveToEnd i) ∧
      (t.moveToEnd i).order.toList = t.order.toList.erase i ++ [i] := by
  have hused : t.Used i := cell?_hasCell hcell
  have hnil : (t.slot i).value.isNil = true := by simpa [Slot.isLive] using hdead
  constructor
  · rw [get, hcell, visit, read, Value.present?, if_pos hnil, Table.touch, hdead]
    rfl
  · exact (ht.threads_moveToEnd hused.lt_size).toList_eq

theorem get_of_not_cleared {h : StringHash}
    (hlive : ∀ i, t.cell? h k = some (.slot i) → (t.slot i).isLive = true) :
    (t.get h k).2 = t := by
  rw [get]
  cases hcell : t.cell? h k with
  | none => rfl
  | some c =>
    cases c with
    | array i => rfl
    | slot i =>
      rw [visit, Table.touch, hlive i hcell]
      rfl

/-- The look-ups of integers and of strings are that of any key, whatever seeds the strings of the
table and the one looked up were made under: they read the same value and leave the same table. That
differs from the one before only if the search ends at a cleared entry, and then in the place of its
slot in the order. No search is cut off. -/
theorem Reachable.look_ups_agree {h : StringHash} (hs : Reachable h s) :
    (∀ k p fuel, s.table.slots.size ≤ fuel →
      (s.table.home? h k).bind (s.table.follow p fuel) = s.table.search h k p) ∧
    (∀ n, s.table.getInt h n = s.table.get h (.integer n)) ∧
    (∀ x, s.table.getStr h x = s.table.get h (.string x)) ∧
    ∀ k, ((∀ i, s.table.cell? h k = some (.slot i) → (s.table.slot i).isLive = true) →
        (s.table.get h k).2 = s.table) ∧
      ∀ i, s.table.cell? h k = some (.slot i) → (s.table.slot i).isLive = false →
        s.table.get h k = (none, s.table.moveToEnd i) ∧
          (s.table.moveToEnd i).order.toList = s.table.order.toList.erase i ++ [i] :=
  ⟨fun k p _ => hs.threaded.search_eq_of_le k p, hs.threaded.getInt_eq_get,
    getStr_eq_get s.table, fun _ => ⟨get_of_not_cleared, fun _ => hs.threaded.get_of_cleared⟩⟩

/-- Every pool hashes its strings under a seed of its own. -/
def pooled : StringHash := ⟨fun s => s.bytes.foldl Str.mix (UInt64.ofNat s.pool)⟩

/-- A table with a short string, which has been cleared, and two equal long strings of two pools. -/
def worded : History :=
  let c := Collector.new 0 1000
  (History.start pooled c 0 4).run pooled
    [(.set (.string ⟨0, 0, [97]⟩) (.boolean true), c),
      (.set (.string ⟨0, 1, List.replicate 41 97⟩) (.boolean true), c),
      (.set (.string ⟨1, 0, List.replicate 41 97⟩) (.boolean false), c),
      (.set (.string ⟨0, 0, [97]⟩) .nil, c)]

theorem reachable_worded : Reachable pooled worded := reachable_run (.start (by rfl)) _

/-- The cleared short string is moved, one with the same bytes from elsewhere is not found, and
equal long strings read what their pools have stored. -/
theorem look_ups_agree_worded :
    let t := worded.table
    let long := fun pool serial : Nat => (⟨pool, serial, List.replicate 41 97⟩ : Str)
    t.getStr pooled ⟨0, 0, [97]⟩ = (none, t.moveToEnd 3) ∧
      t.order.toList = [3, 2, 0] ∧ (t.moveToEnd 3).order.toList = [2, 0, 3] ∧
      (t.getStr pooled ⟨1, 0, [97]⟩).2 = t ∧
      (t.getStr pooled (long 0 1)).1 = some (.boolean true) ∧
      (t.getStr pooled (long 1 0)).1 = some (.boolean false) ∧
      (t.getStr pooled (long 2 0)).1 = none ∧
      t.getInt pooled 1 = t.get pooled (.integer 1) ∧
      (t.home? pooled (.string (long 2 0))).bind
        (t.follow (fun x => x.key.equal (.string (long 2 0))) 9) = none := by
  intro t long
  obtain ⟨hends, hint, hstr, hleft⟩ := reachable_worded.look_ups_agree
  have hshort : t.cell? pooled (.string ⟨0, 0, [97]⟩) = some (.slot 3) := by decide +kernel
  have hforeign : t.cell? pooled (.string ⟨1, 0, [97]⟩) = none := by decide +kernel
  have horder : t.order.toList = [3, 2, 0] := by decide +kernel
  obtain ⟨hshort, hmoved⟩ := (hleft _).2 3 hshort (by decide +kernel)
  refine ⟨?_, horder, ?_, ?_, ?_, ?_, ?_, hint 1, ?_⟩
  · rw [hstr]
    exact hshort
  · rw [hmoved, horder]
    rfl
  · rw [hstr]
    refine (hleft _).1 fun i hi => ?_
    rw [hforeign] at hi
    cases hi
  · rw [hstr]
    decide +kernel
  · rw [hstr]
    decide +kernel
  · rw [hstr]
    decide +kernel
  · rw [hends _ _ 9 (by decide +kernel)]
    decide +kernel

theorem le_of_setList_ok {c : Collector} (hok : (t.setList h c first values).result = .ok ()) :
    1 ≤ first := by
  by_contra hlt
  rw [setList, if_pos (by omega)] at hok
  cases hok

theorem run_eq_of_lt (first : Int) {i : Nat} (hi : i < values.length) :
    run first values = run first (values.take i) ++
      (.integer (first + i), values[i]) :: run (first + i + 1) (values.drop (i + 1)) := by
  have hlength : (values.take i).length = i := by
    rw [List.length_take]
    omega
  have hsplit : values.take i ++ values[i] :: values.drop (i + 1) = values := by
    rw [← List.drop_eq_getElem_cons hi, List.take_append_drop]
  calc run first values
    _ = run first (values.take i ++ values[i] :: values.drop (i + 1)) := by rw [hsplit]
    _ = run first (values.take i) ++ run (first + i) (values[i] :: values.drop (i + 1)) := by
      rw [run_append, hlength]
    _ = _ := by rw [run_cons]

theorem not_equal_of_mem_run
    (hne : ∀ i < values.length, Value.integer (first + i) ≠ .integer n) :
    ∀ e ∈ run first values, e.1.equal (.integer n) = false := by
  intro e he
  obtain ⟨i, hi, rfl⟩ := List.mem_mapIdx.1 he
  rw [Bool.eq_false_iff, ne_eq, Value.equal_integer_iff]
  exact hne i hi

/-- What integers read once `values` have been stored from `first` on. -/
structure ReadsBack (h : StringHash) (t : Table) (first : Int) (values : List Value)
    (t' : Table) : Prop where
  /-- An integer reads the last of the values whose key has the same double. -/
  stored : ∀ n i (hi : i < values.length), Value.integer (first + i) = .integer n →
    (∀ j, i < j → j < values.length → Value.integer (first + j) ≠ .integer n) →
    (t'.getInt h n).1 = values[i].present?
  kept : ∀ n, (∀ i < values.length, Value.integer (first + i) ≠ .integer n) →
    (t'.getInt h n).1 = (t.getInt h n).1
  /-- Up to 53 bits, these are the value with that very key, and what was there before for all
  integers outside the run. -/
  exact : first + values.length ≤ 2 ^ 53 →
    (∀ i (hi : i < values.length), (t'.getInt h (first + i)).1 = values[i].present?) ∧
      ∀ n, n < first ∨ first + values.length ≤ n → (t'.getInt h n).1 = (t.getInt h n).1

theorem readsBack_of_getInt (hfirst : 1 ≤ first)
    (hstored : ∀ n i (hi : i < values.length), Value.integer (first + i) = .integer n →
      (∀ j, i < j → j < values.length → Value.integer (first + j) ≠ .integer n) →
      (t'.getInt h n).1 = values[i].present?)
    (hkept : ∀ n, (∀ i < values.length, Value.integer (first + i) ≠ .integer n) →
      (t'.getInt h n).1 = (t.getInt h n).1) : ReadsBack h t first values t' := by
  refine ⟨hstored, hkept, fun hlast => ?_⟩
  -- a key of the run shares its double with no other integer
  have halone : ∀ {i : Nat} {n : Int}, i < values.length →
      Value.integer (first + i) = .integer n → n = first + i := fun hi he =>
    Number.eq_of_ofInt_eq (by omega) (Value.number.inj he).symm
  constructor
  · intro i hi
    refine hstored _ i hi rfl fun j hij hj he => ?_
    have hsame := halone hj he
    omega
  · intro n hn
    refine hkept n fun i hi he => ?_
    have hsame := halone hi he
    omega

/-- After a bulk store each integer reads the last value stored under its double, or what it read
before if there is none. -/
theorem Reachable.readsBack_of_setList (hs : Reachable h s) (c : Collector)
    (hok : (s.table.setList h c first values).result = .ok ()) :
    ReadsBack h s.table first values (s.table.setList h c first values).table := by
  have hv := hs.sound.valid
  have hp := hv.performs_setList c first values
  have hv' := hp.valid
  have hrun : ∀ e ∈ run first values, e.1.IsKey := fun e he => isKey_run he
  have hproper := hv.proper_contents.storeAll hrun
  have hget : ∀ n, ((s.table.setList h c first values).table.getInt h n).1 =
      (s.table.contents.storeAll (run first values)).lookup (.integer n) := fun n => by
    rw [hv'.getInt_eq_get, hv'.get_eq_lookup,
      (hp.done () hok).lookup_eq hv'.proper_contents hproper]
  refine readsBack_of_getInt (le_of_setList_ok hok) (fun n i hi he hlast => ?_) fun n hne => ?_
  · rw [hget]
    have hsplit := run_eq_of_lt first hi
    rw [hsplit] at hrun ⊢
    refine hv.proper_contents.lookup_storeAll_last hrun (Value.equal_integer_iff.2 he) ?_
    refine not_equal_of_mem_run fun j hj => ?_
    rw [List.length_drop] at hj
    have hother := hlast (i + 1 + j) (by omega) (by omega)
    rwa [show first + (i + 1 + j : Nat) = first + i + 1 + j by omega] at hother
  · rw [hget, hv.getInt_eq_get, hv.get_eq_lookup]
    exact hv.proper_contents.lookup_storeAll_of_ne hrun (not_equal_of_mem_run hne)

/-- Two of the keys beyond 53 bits share a double. -/
theorem readsBack_of_setList_crowded :
    let c := Collector.new 0 1000
    let first : Int := 2 ^ 53 - 1
    let o := crowded.table.setList .ofContent c first [.boolean true, .boolean false, .boolean true]
    let o' := crowded.table.setList .ofContent c 1 [.boolean true, .nil]
    (o.result = .ok () ∧ (o.table.getInt .ofContent (2 ^ 53)).1 = some (.boolean true) ∧
      (o.table.getInt .ofContent 1).1 = none) ∧
    o'.result = .ok () ∧ (o'.table.getInt .ofContent (1 + (0 : Nat))).1 = some (.boolean true) ∧
      (o'.table.getInt .ofContent (1 + (1 : Nat))).1 = none ∧
      ∀ n, n < 1 ∨ 3 ≤ n → (o'.table.getInt .ofContent n).1 =
        (crowded.table.getInt .ofContent n).1 := by
  intro c first o o'
  have hok : o.result = .ok () := by decide +kernel
  have hok' : o'.result = .ok () := by decide +kernel
  have hreads := reachable_crowded.readsBack_of_setList c hok
  obtain ⟨hstored, hkept⟩ := (reachable_crowded.readsBack_of_setList c hok').exact (by decide)
  refine ⟨⟨hok, hreads.stored _ 2 (by decide) (by decide +kernel) ?_, ?_⟩, hok',
    hstored 0 (by decide), hstored 1 (by decide), hkept⟩
  · intro j hj hlt
    exact absurd hlt (by simp; omega)
  · rw [hreads.kept 1 (by decide +kernel)]
    decide +kernel

/-- Of two values stored under keys that share a double, only the second one can be read. -/
theorem setList_unread : ¬∀ (h : SeededHash) (s : History) (c : Collector) (first : Int)
    (values : List Value), Reachable h s →
      (s.table.setList h c first values).result = .ok () →
      (∀ i (hi : i < values.length),
        ((s.table.setList h c first values).table.getInt h (first + i)).1 = values[i].present?) ∧
      ∀ n, n < first ∨ first + values.length ≤ n →
        ((s.table.setList h c first values).table.getInt h n).1 = (s.table.getInt h n).1 := by
  intro hall
  have hstored := (hall .ofContent (.start .ofContent (.new 0 1000) 0 0) (.new 0 1000) (2 ^ 53)
    [.boolean true, .boolean false] (.start (by rfl)) (by decide +kernel)).1 0 (by decide)
  exact absurd hstored (by decide +kernel)

end LuaData.Table
