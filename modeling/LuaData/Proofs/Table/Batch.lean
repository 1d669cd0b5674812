import LuaData.Proofs.Table.Growth

namespace LuaData.Table

open Collector Ledger

variable {h : SeededHash} {s : History} {t t' : Table} {k v : Value} {c c' : Collector}
  {values : List Value}

/-- Single stores of values under `n, n + 1, …` take `t` to `t'`. All of them succeed, and each
meets the collector as others have left it. -/
inductive Singly (h : StringHash) : Table → Int → List Value → Table → Prop
  | nil {t : Table} {n : Int} : Singly h t n [] t
  | cons {t t' : Table} {n : Int} {v : Value} {vs : List Value} (c : Collector)
      (hok : (t.setInt h c n v).result = .ok ())
      (hs : Singly h (t.setInt h c n v).table (n + 1) vs t') : Singly h t n (v :: vs) t'

theorem Singly.matches_storeAll {n : Int} (hs : Singly h t n values t') (hv : Valid h t) :
    Valid h t' ∧ Matches t'.contents (t.contents.storeAll (run n values)) := by
  induction hs with
  | nil => exact ⟨hv, matches_refl hv.proper_contents⟩
  | @cons t t' n v vs c hok hs ih =>
    have hp := hv.performs_set c (.integer n) v
    obtain ⟨hv', hm⟩ := ih hp.valid
    refine ⟨hv', ?_⟩
    rw [run_cons]
    exact hm.trans ((hp.done () hok).storeAll fun e he => isKey_run he)

/-- A bulk store leaves the same value for every key as single stores do. -/
theorem Reachable.get_eq_of_setList (hs : Reachable h s) (c : Collector) {first : Int}
    (hok : (s.table.setList h c first values).result = .ok ())
    (hsingly : Singly h s.table first values t') :
    let t := (s.table.setList h c first values).table
    (∀ k, (t.get h k).1 = (t'.get h k).1) ∧ t.count false = t'.count false := by
  intro t
  have hv := hs.sound.valid
  have hp := hv.performs_setList c first values
  have hv₁ : Valid h t := hp.valid
  have hm₁ : Matches t.contents _ := hp.done () hok
  obtain ⟨hv₂, hm₂⟩ := hsingly.matches_storeAll hv
  have hproper : Proper (s.table.contents.storeAll (run first values)) :=
    hv.proper_contents.storeAll fun e he => isKey_run he
  constructor
  · intro k
    rw [hv₁.get_eq_lookup, hv₂.get_eq_lookup, hm₁.lookup_eq hv₁.proper_contents hproper,
      hm₂.lookup_eq hv₂.proper_contents hproper]
  · rw [count_eq, count_eq, hm₁.length_eq hv₁.proper_contents hproper,
      hm₂.length_eq hv₂.proper_contents hproper]

/-- The bulk store extends the array part, and the single ones the hash part. -/
theorem get_eq_of_setList_crowded :
    let c := Collector.new 0 1000
    let values := [Value.boolean true, .nil, .boolean false]
    let o := crowded.table.setList .ofContent c 2 values
    ∃ t', Singly .ofContent crowded.table 2 values t' ∧
      (∀ k, (o.table.get .ofContent k).1 = (t'.get .ofContent k).1) ∧
      o.table.array.size = 4 ∧ t'.array.size = 0 := by
  intro c values o
  have hsingly : Singly .ofContent crowded.table 2 values _ :=
    .cons c (by decide +kernel) (.cons c (by decide +kernel) (.cons c (by decide +kernel) .nil))
  have hget := (reachable_crowded.get_eq_of_setList c (by decide +kernel) hsingly).1
  exact ⟨_, hsingly, hget, by decide +kernel, by decide +kernel⟩

/-- To store `v` under `k` no part has to grow: `k` has a cell, or is not to have one, or there is a
place for it. -/
def Placed (h : StringHash) (t : Table) (k v : Value) : Prop :=
  (∃ cell, t.Keyed cell k) ∨ v.isNil = true ∨ ¬Cramped h t k

theorem Placed.insert?_ne_none (hp : Placed h t k v) (hv : Valid h t) (hnew : t.cell? h k = none)
    (hnil : v.isNil = false) : t.insert? h k ≠ none := by
  rcases hp with ⟨cell, hkeyed⟩ | hn | hroom
  · exact absurd hkeyed (hv.cell?_eq_none_iff.1 hnew cell)
  · rw [hnil] at hn
    cases hn
  · exact fun hins => hroom ((hv.insert?_eq_none_iff k).1 hins)

theorem Valid.placed_of_lt (hv : Valid h t) (hroom : t.order.toList.length < t.slots.size) :
    Placed h t k v :=
  .inr (.inr fun hc => hv.insert?_ne_none_of_lt hroom ((hv.insert?_eq_none_iff k).2 hc))

inductive Stored (h : StringHash) :
    Table → Collector → Nat → List Value → Table → Collector → Prop
  | nil {t : Table} {c : Collector} {n : Nat} : Stored h t c n [] t c
  | cell {t t' : Table} {c c' : Collector} {n : Nat} {v : Value} {vs : List Value} (hpos : 1 ≤ n)
      (hn : n ≤ t.array.size)
      (hs : Stored h (t.write (.array (n - 1)) v) (c.noteStored .table v) (n + 1) vs t' c') :
      Stored h t c n (v :: vs) t' c'
  | key {t t₁ t' : Table} {c c₁ c' : Collector} {n : Nat} {v : Value} {vs : List Value}
      (hp : Placed h t (.integer n) v) (hset : t.setInt h c n v = ⟨.ok (), t₁, c₁⟩)
      (hs : Stored h t₁ c₁ (n + 1) vs t' c') : Stored h t c n (v :: vs) t' c'

theorem Stored.requested {n : Nat} (hs : Stored h t c n values t' c') (hv : Valid h t) :
    Requested c c' [] ∧ t'.array.size = t.array.size ∧ t'.slots.size = t.slots.size := by
  induction hs with
  | nil => exact ⟨.refl _, rfl, rfl⟩
  | @cell t t' c c' n v vs hpos hn hs ih =>
    have hcell : t.HasCell (.array (n - 1)) := by
      rw [HasCell]
      omega
    obtain ⟨hq, harray, hslots⟩ := ih (hv.write hcell v)
    exact ⟨(requested_noteStored c v).trans hq, harray.trans (array_size_write ..),
      hslots.trans (slots_size_write ..)⟩
  | @key t t₁ t' c c₁ c' n v vs hp hset hs ih =>
    obtain ⟨_, _, ho, hq, harray, hslots, -⟩ := hv.set_ok c (Value.isKey_integer n) v
      (hp.insert?_ne_none hv)
    have hvalid := (hv.performs_set c (.integer n) v).valid
    cases hset.symm.trans ho
    rw [ho] at hvalid
    obtain ⟨hq', harray', hslots'⟩ := ih hvalid
    exact ⟨hq.trans hq', harray'.trans harray, hslots'.trans hslots⟩

theorem Valid.stored_setRun (hv : Valid h t) (c : Collector) (n : Nat) (values : List Value)
    (hroom : t.order.toList.length + values.length ≤ t.slots.size) :
    Stored h t c n values (t.setRun h c n values).table (t.setRun h c n values).collector := by
  induction values generalizing t c n with
  | nil => exact .nil
  | cons v vs ih =>
    rw [List.length_cons] at hroom
    have hp := hv.placed_of_lt (k := .integer n) (v := v) (by omega)
    obtain ⟨t₁, c₁, hset, -, -, hsize, hused⟩ := hv.set_ok c (Value.isKey_integer n) v
      (hp.insert?_ne_none hv)
    have hv₁ : Valid h t₁ := by
      have hperforms := hv.performs_set c (.integer n) v
      rw [hset] at hperforms
      exact hperforms.valid
    rw [setRun, setInt, hset]
    exact .key hp hset (ih hv₁ c₁ (n + 1) (by omega))

theorem Stored.writeRun {n : Nat} {us vs : List Value} (hpos : 1 ≤ n)
    (hus : us.length ≤ t.array.size + 1 - n)
    (hs : Stored h (t.writeRun c (n - 1) us).1 (t.writeRun c (n - 1) us).2 (n + us.length) vs
      t' c') : Stored h t c n (us ++ vs) t' c' := by
  induction us generalizing t c n with
  | nil => exact hs
  | cons u us ih =>
    rw [List.length_cons] at hus hs
    refine .cell hpos (by omega) (ih (Nat.le_add_left ..) ?_ ?_)
    · rw [array_size_write]
      omega
    · rw [Table.writeRun, Nat.sub_add_cancel hpos] at hs
      rwa [Nat.add_sub_cancel, Nat.add_right_comm]

theorem Valid.stored_storeRun (hv : Valid h t) (c : Collector) {n : Nat} (hn : 1 ≤ n)
    (values : List Value) (hroom : t.order.toList.length +
      (values.length - (t.array.size + 1 - n)) ≤ t.slots.size) :
    Stored h t c n values (t.storeRun h c n values).table (t.storeRun h c n values).collector := by
  unfold storeRun
  dsimp only
  generalize hinside : t.array.size + 1 - n = inside at *
  obtain ⟨hv₁, -, ho₁, hs₁⟩ := hv.writeRun c (n - 1) (values.take inside) fun j hj => by
    rw [List.length_take] at hj
    omega
  have hrest := hv₁.stored_setRun (t.writeRun c (n - 1) (values.take inside)).2 (n + inside)
    (values.drop inside) (by
      rw [ho₁, hs₁, List.length_drop]
      exact hroom)
  generalize ho : Table.setRun h _ _ _ (values.drop inside) = o at hrest ⊢
  suffices hstored : Stored h t c n (values.take inside ++ values.drop inside) o.table
      o.collector by rwa [List.take_append_drop] at hstored
  refine .writeRun hn (by rw [List.length_take]; omega) ?_
  rcases Nat.lt_or_ge values.length inside with hlt | hge
  · -- the array part takes all of the run
    rw [List.drop_of_length_le hlt.le] at ho ⊢
    rw [← ho]
    exact .nil
  · rwa [List.length_take, Nat.min_eq_left hge]

theorem setList_eq {first : Int} (hfirst : 1 ≤ first) (hvalues : values ≠ [])
    (hlast : first + values.length - 1 ≤ maxInteger) (t : Table) (c : Collector) :
    t.setList h c first values =
      match t.grownFor h c first.toNat values.length with
      | ⟨.ok _, t, c⟩ => t.storeRun h c first.toNat values
      | failed => failed := by
  rw [setList, if_neg (by omega), if_neg (by rwa [List.isEmpty_iff]), if_neg (by omega)]
  rfl

theorem requested_grownFor (t : Table) (c : Collector) (first count : Nat) :
    Requested c (t.grownFor h c first count).collector [.hashPart, .arrayPart] := by
  unfold grownFor grown
  dsimp only
  split_ifs
  · exact requested_resize ..
  · exact (Requested.refl c).mono (List.nil_sublist _)

structure GrowsFirst (h : StringHash) (t : Table) (c : Collector) (first : Int)
    (values : List Value) (o : Outcome Unit) : Prop where
  requested : Requested c o.collector [.hashPart, .arrayPart]
  idle : first < 1 ∨ values = [] ∨ maxInteger < first + values.length - 1 →
    o.table = t ∧ o.collector = c
  /-- The growth comes before anything is stored. If it is granted, the stores succeed, and they ask
  for nothing more. -/
  grown : 1 ≤ first → values ≠ [] → first + values.length - 1 ≤ maxInteger →
    ∃ r t₁ c₁, t.grownFor h c first.toNat values.length = ⟨r, t₁, c₁⟩ ∧
      Requested c c₁ [.hashPart, .arrayPart] ∧ (∀ k, (t₁.get h k).1 = (t.get h k).1) ∧
      (∀ e, r = .error e → o = ⟨.error e, t, c₁⟩) ∧
      (r = .ok () → o.result = .ok () ∧
        Stored h t₁ c₁ first.toNat values o.table o.collector ∧ Requested c₁ o.collector [] ∧
        o.table.array.size = t₁.array.size ∧ o.table.slots.size = t₁.slots.size)

theorem Valid.growsFirst_of_grown (hv : Valid h t) (c : Collector) {first : Int}
    (hfirst : 1 ≤ first) (hvalues : values ≠ [])
    (hlast : first + values.length - 1 ≤ maxInteger) :
    GrowsFirst h t c first values (t.setList h c first values) := by
  have hrequested := t.requested_grownFor (h := h) c first.toNat values.length
  have hlen : 0 < values.length := List.length_pos_iff.2 hvalues
  have hidle : ∀ {p : Prop}, first < 1 ∨ values = [] ∨ maxInteger < first + values.length - 1 → p :=
    fun hor => by
      rcases hor with hlt | hnil | hlt
      · omega
      · exact absurd hnil hvalues
      · omega
  rw [setList_eq hfirst hvalues hlast]
  rcases hv.grown_cases c (by omega : 1 ≤ first.toNat) hlen rfl rfl with
    ⟨e, c₁, hgrown, -⟩ | ⟨t₁, c₁, hgrown, hv₁, hm₁, hroom⟩ <;>
    replace hgrown : t.grownFor h c first.toNat values.length = _ := hgrown <;>
    rw [hgrown] at hrequested ⊢
  · refine ⟨hrequested, hidle, fun _ _ _ =>
      ⟨_, _, _, hgrown, hrequested, fun _ => rfl, ?_, nofun⟩⟩
    rintro e' ⟨⟩
    rfl
  · obtain ⟨t₂, c₂, hrun, -⟩ := hv₁.storeRun_ok c₁ (by omega) values hroom
    have hstored := hv₁.stored_storeRun c₁ (by omega) values hroom
    obtain ⟨hq, harray, hslots⟩ := hstored.requested hv₁
    refine ⟨?_, hidle, fun _ _ _ => ⟨_, _, _, hgrown, hrequested, fun k => ?_, nofun, fun _ =>
      ⟨congrArg Outcome.result hrun, hstored, hq, harray, hslots⟩⟩⟩
    · have hall := hrequested.trans hq
      rwa [List.append_nil] at hall
    · rw [hv₁.get_eq_lookup, hv.get_eq_lookup,
        hm₁.lookup_eq hv₁.proper_contents hv.proper_contents]

/-- A bulk store asks for one hash part and one array part at most, before it stores anything. Once
these are granted it succeeds: no value makes a part grow, and there is no rehash. -/
theorem Reachable.grows_first (hs : Reachable h s) (c : Collector) (first : Int)
    (values : List Value) :
    GrowsFirst h s.table c first values (s.table.setList h c first values) := by
  by_cases hargs : 1 ≤ first ∧ values ≠ [] ∧ first + values.length - 1 ≤ maxInteger
  · exact hs.sound.valid.growsFirst_of_grown c hargs.1 hargs.2.1 hargs.2.2
  · have hsame : (s.table.setList h c first values).table = s.table ∧
        (s.table.setList h c first values).collector = c := by
      unfold setList
      split_ifs with hlow hempty hlast
      · exact ⟨rfl, rfl⟩
      · exact ⟨rfl, rfl⟩
      · exact ⟨rfl, rfl⟩
      · rw [List.isEmpty_iff] at hempty
        exact absurd ⟨by omega, hempty, by omega⟩ hargs
    refine ⟨?_, fun _ => hsame, fun hfirst hvalues hlast =>
      absurd ⟨hfirst, hvalues, hlast⟩ hargs⟩
    rw [hsame.2]
    exact (Requested.refl c).mono (List.nil_sublist _)

/-- Keys that no array part takes double the hash part, though one of its slots is cleared and one
of the values is nil. -/
theorem grows_first_blended :
    let c := Collector.new 0 1000
    let first : Int := maxArraySize + 1
    let values := [Value.boolean true, .nil]
    let o := blended.table.setList .ofContent c first values
    GrowsFirst .ofContent blended.table c first values o ∧ o.result = .ok () ∧
      blended.table.slots.size = 2 ∧ o.table.slots.size = 4 ∧
      o.collector.events = #[.alloc .hashPart 4, .free .hashPart 2] := by
  intro c first values o
  exact ⟨reachable_blended.grows_first c first values, by decide +kernel, by decide +kernel,
    by decide +kernel, by decide +kernel⟩

end LuaData.Table
