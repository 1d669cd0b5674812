import LuaData.Proofs.Table.Bulk
import LuaData.Proofs.Table.Traversal

namespace LuaData

def Outcome.map {α β : Type} (f : α → β) (o : Outcome α) : Outcome β :=
  ⟨o.result.map f, o.table, o.collector⟩

/-- Outcomes with one reply and one collector differ at most in their tables. -/
theorem Outcome.eq_mk {α : Type} {o o' : Outcome α} (hr : o'.result = o.result)
    (hc : o'.collector = o.collector) : o' = ⟨o.result, o'.table, o.collector⟩ := by
  rw [← hr, ← hc]

namespace Table

open Ledger

inductive Operation where
  | set (k v : Value)
  | setInt (n : Int) (v : Value)
  /-- A store through a cell that was asked for. -/
  | setCell (k v : Value)
  | setList (first : Int) (values : List Value)
  | resize (arraySize hashSize : Nat)
  | resizeArray (arraySize : Nat)
  | get (k : Value)
  | getInt (n : Int)
  | getStr (s : Str)
  | next (k : Value)
  | length
  | count (fuzzy : Bool)

inductive Reply where
  | done
  | value (v? : Option Value)
  | entry (e? : Option (Value × Value))
  | number (n : Nat)

namespace Operation

def writeCell (v : Value) (o : Outcome Cell) : Outcome Reply :=
  match o with
  | ⟨.ok cell, t, c⟩ => ⟨.ok .done, t.write cell v, c⟩
  | ⟨.error e, t, c⟩ => ⟨.error e, t, c⟩

def apply (h : StringHash) (t : Table) (c : Collector) : Operation → Outcome Reply
  | set k v => (t.set h c k v).map fun _ => .done
  | setInt n v => (t.setInt h c n v).map fun _ => .done
  | setCell k v => writeCell v (t.cellFor h c k)
  | setList first values => (t.setList h c first values).map fun _ => .done
  | resize arraySize hashSize => (t.resize h c arraySize hashSize).map fun _ => .done
  | resizeArray arraySize => (t.resizeArray h c arraySize).map fun _ => .done
  | get k => ⟨.ok (.value (t.get h k).1), (t.get h k).2, c⟩
  | getInt n => ⟨.ok (.value (t.getInt h n).1), (t.getInt h n).2, c⟩
  | getStr s => ⟨.ok (.value (t.getStr h s).1), (t.getStr h s).2, c⟩
  | next k => ⟨(t.next h k).map .entry, t, c⟩
  | length => ⟨.ok (.number (t.length h).1), (t.length h).2, c⟩
  | count fuzzy => ⟨.ok (.number (t.count fuzzy)), t, c⟩

def stores : Operation → List (Value × Value)
  | set k v => [(k, v)]
  | setInt n v => [(.integer n, v)]
  | setCell k v => [(k, v)]
  | setList first values => run first values
  | _ => []

def made (op : Operation) (o : Outcome Reply) : List (Value × Value) :=
  match o.result with
  | .ok _ => op.stores
  | .error _ => []

end Operation

/-- A table and the stores made in it so far. -/
structure History where
  table : Table
  log : List (Value × Value)

namespace History

/-- An operation of a history. It meets the collector as others have left it. -/
def step (h : StringHash) (s : History) (op : Operation × Collector) : History :=
  let o := op.1.apply h s.table op.2
  ⟨o.table, s.log ++ op.1.made o⟩

def start (h : StringHash) (c : Collector) (arraySize hashSize : Nat) : History :=
  ⟨(withCapacity h c arraySize hashSize).table, []⟩

def run (h : StringHash) (s : History) (ops : List (Operation × Collector)) : History :=
  ops.foldl (step h) s

end History

variable {h : SeededHash} {t t' : Table} {c : Collector}

theorem Performs.map {α β : Type} {log : List (Value × Value)} {o : Outcome α}
    (hp : Performs h t log o) (f : α → β) : Performs h t log (o.map f) := by
  obtain ⟨r, t', c⟩ := o
  cases r with
  | ok x => exact hp.valid.performs_ok (hp.isKey x rfl) (hp.done x rfl) (f x) c
  | error e => exact hp.valid.performs_error (hp.failed e rfl) log e c

theorem Touched.performs {α : Type} (ht : Touched t t') (hv : Valid h t) (r : Except TableError α)
    (c : Collector) : Performs h t [] ⟨r, t', c⟩ := by
  obtain ⟨hv', he⟩ := ht.valid hv
  have hm : Matches t'.contents t.contents := he ▸ matches_refl hv'.proper_contents
  cases r with
  | ok x => exact hv'.performs_ok (fun _ he => absurd he List.not_mem_nil) hm x c
  | error e => exact hv'.performs_error hm [] e c

/-- An operation makes its stores or fails. -/
theorem Valid.performs_apply (hv : Valid h t) (c : Collector) (op : Operation) :
    Performs h t op.stores (op.apply h t c) := by
  cases op with
  | set k v => exact (hv.performs_set c k v).map _
  | setInt n v => exact (hv.performs_set c _ v).map _
  | setCell k v =>
    have hp := hv.provides_cellFor c k
    rw [Operation.apply]
    generalize t.cellFor h c k = o at hp
    obtain ⟨r, t₁, c₁⟩ := o
    cases r with
    | ok cell => exact hp.performs_write rfl v _ c₁
    | error e => exact hp.valid.performs_error hp.matches_contents _ e c₁
  | setList first values => exact (hv.performs_setList c first values).map _
  | resize a n => exact (hv.performs_resize c a n).map _
  | resizeArray a => exact (hv.performs_resize c a _).map _
  | get k => exact (touched_get k).performs hv _ c
  | getInt n => exact (touched_getInt n).performs hv _ c
  | getStr s => exact (touched_getStr s).performs hv _ c
  | next k => exact Touched.refl.performs hv _ c
  | length => exact touched_length.performs hv _ c
  | count fuzzy => exact Touched.refl.performs hv _ c

structure History.Sound (h : StringHash) (s : History) : Prop where
  valid : Valid h s.table
  isKey : ∀ e ∈ s.log, e.1.IsKey
  matches_ofLog : Matches s.table.contents (ofLog s.log)

theorem History.Sound.step {s : History} (hs : s.Sound h) (op : Operation × Collector) :
    (s.step h op).Sound h := by
  have hp := hs.valid.performs_apply op.2 op.1
  have hlog : ∀ log, (∀ e ∈ log, e.1.IsKey) → ∀ e ∈ s.log ++ log, e.1.IsKey := fun log hk e he =>
    (List.mem_append.1 he).elim (hs.isKey e) (hk e)
  unfold History.step Operation.made
  generalize op.1.apply h s.table op.2 = o at hp
  obtain ⟨r, t, c⟩ := o
  cases r with
  | ok x =>
    have hk := hp.isKey x rfl
    refine ⟨hp.valid, hlog _ hk, ?_⟩
    dsimp only
    rw [ofLog_append]
    -- stores take ledgers that match to ledgers that match
    exact (hp.done x rfl).trans (hs.matches_ofLog.storeAll hk)
  | error e =>
    refine ⟨hp.valid, hlog _ fun _ he => absurd he List.not_mem_nil, ?_⟩
    dsimp only
    rw [List.append_nil]
    exact (hp.failed e rfl).trans hs.matches_ofLog

theorem History.Sound.chronological {s : History} (hs : s.Sound h) :
    Chronological s.log s.table.contents.outside :=
  ((chronological_ofLog hs.isKey).sublist List.filter_sublist).of_forall₂ hs.matches_ofLog.outside

theorem History.Sound.run {s : History} (hs : s.Sound h) (ops : List (Operation × Collector)) :
    (s.run h ops).Sound h := by
  induction ops generalizing s with
  | nil => exact hs
  | cons op ops ih => exact ih (hs.step op)

theorem valid_empty : Valid h empty := Valid.bare (t := empty) (Nat.zero_le _) (.inl rfl)

theorem History.sound_start (h : SeededHash) (c : Collector) (a n : Nat) :
    (History.start h c a n).Sound h := by
  have hempty : ∀ {t : Table}, Valid h t → Matches t.contents empty.contents →
      History.Sound h ⟨t, []⟩ := fun hv hm => ⟨hv, fun _ he => absurd he List.not_mem_nil, hm⟩
  have hrefl : Matches empty.contents empty.contents := matches_refl proper_nil
  unfold History.start withCapacity
  split_ifs
  · exact hempty valid_empty hrefl
  · have hp := valid_empty.performs_resize (h := h) c a n
    generalize empty.resize h c a n = o at hp
    obtain ⟨r, t, c⟩ := o
    cases r with
    | ok x => exact hempty hp.valid (hp.done x rfl)
    | error e => exact hempty hp.valid (hp.failed e rfl)

/-- What holds of the hash part of every table. A slot is used while its key is not nil. -/
structure Representation (h : StringHash) (t : Table) : Prop where
  size : t.slots.size = 0 ∨ ∃ n, t.slots.size = 2 ^ n
  distinct : ∀ i j, t.Used i → t.Used j → (t.slot i).key.equal (t.slot j).key = true → i = j
  apart : ∀ i n, t.Used i → (t.slot i).key.toInteger? = some n → ¬(1 ≤ n ∧ n ≤ t.array.size)
  /-- A used slot that is not at its key's main position finds there one that is at its own. -/
  displaced : ∀ i, t.Used i → t.homeOf h i ≠ i →
    t.Used (t.homeOf h i) ∧ t.homeOf h (t.homeOf h i) = t.homeOf h i
  acyclic : ∀ i, ¬Relation.TransGen t.Link i i
  unshared : ∀ i j k, t.Link i k → t.Link j k → i = j
  unchained : ∀ i, ¬t.Used i → (t.slot i).chain = none ∧ ∀ j, ¬t.Link j i
  reached : ∀ i, t.Used i → t.Reaches (t.homeOf h i) i
  full : ∀ i, t.lastFree ≤ i → i < t.slots.size → t.Used i
  /-- The ends and the links of the order thread one list of the used slots. -/
  ordered : t.order.links.size = t.slots.size ∧
    ∃ is, t.order.Threads is ∧ ∀ i, i ∈ is ↔ t.Used i

theorem Valid.representation {t : Table} (hv : Valid h t) : Representation h t where
  size := hv.chained.size
  distinct := hv.distinct
  apart i n hi hn hrange := by
    have hout := hv.apart i hi
    rw [inArray, hn] at hout
    exact of_decide_eq_false hout hrange
  displaced := hv.chained.displaced
  acyclic := hv.chained.acyclic
  unshared := hv.chained.unshared
  unchained i hi := ⟨by rw [hv.chained.blank i hi], fun j hl => hi (hv.chained.target j i hl)⟩
  reached := hv.chained.reached
  full := hv.full
  ordered := ⟨hv.links, _, hv.threads, hv.member⟩

/-- Every history leaves a well-formed hash part. -/
theorem History.representation_run (h : SeededHash) (c : Collector) (a n : Nat)
    (ops : List (Operation × Collector)) :
    Representation h ((History.start h c a n).run h ops).table :=
  ((sound_start h c a n).run ops).valid.representation

/-- A table refines the finite map of the stores made in it: look-ups and the exact count agree with
the map, and a traversal ends and lists each of its entries once, in some order. -/
theorem History.refines_ofLog (h : SeededHash) (c : Collector) (a n : Nat)
    (ops : List (Operation × Collector)) :
    let s := (History.start h c a n).run h ops
    (∀ k, (s.table.get h k).1 = (ofLog s.log).lookup k) ∧
      s.table.count false = (ofLog s.log).length ∧
      Traversal h s.table .nil (s.table.entries h) ∧
      ∃ es, es.Perm (ofLog s.log) ∧ List.Forall₂ Alike (s.table.entries h) es := by
  intro s
  have hs : s.Sound h := (sound_start h c a n).run ops
  have hp := proper_ofLog hs.isKey
  rw [hs.valid.entries_eq]
  refine ⟨fun k => ?_, ?_, hs.valid.traversal_contents, ?_⟩
  · rw [hs.valid.get_eq_lookup, hs.matches_ofLog.lookup_eq hs.valid.proper_contents hp]
  · rw [count_eq, hs.matches_ofLog.length_eq hs.valid.proper_contents hp]
  · exact exists_perm_alike hs.valid.proper_contents hp hs.matches_ofLog.holds

/-- The keys that no array part takes are listed from the longest present on, whatever has happened
to the table. -/
theorem History.chronological_outside (h : SeededHash) (c : Collector) (a n : Nat)
    (ops : List (Operation × Collector)) :
    let s := (History.start h c a n).run h ops
    (∀ k, k.neverInArray = true →
      ((∃ e ∈ outside (s.table.entries h), e.1.equal k = true) ↔ (since s.log k).isSome = true)) ∧
      Chronological s.log (outside (s.table.entries h)) := by
  intro s
  have hs : s.Sound h := (sound_start h c a n).run ops
  rw [hs.valid.entries_eq]
  constructor
  · intro k hk
    rw [isSome_since_iff, ← exists_congr fun v => hs.matches_ofLog.holds k v]
    constructor
    · rintro ⟨e, he, hek⟩
      exact ⟨e.2, e, (List.mem_filter.1 he).1, hek, rfl⟩
    · rintro ⟨v, e, he, hek, -⟩
      exact ⟨e, List.mem_filter.2 ⟨he, (Value.neverInArray_congr hek).trans hk⟩, hek⟩
  · exact hs.chronological

end Table

end LuaData
