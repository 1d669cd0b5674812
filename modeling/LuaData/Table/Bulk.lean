import LuaData.Table.Update

namespace LuaData

namespace Table

def maxInteger : Int := 0x7fffffffffffffff

/-- The array size for a run of keys `first, …, last`: enough for the run if any part of it may live
in the array part. -/
def bulkArraySize (t : Table) (first last : Nat) : Nat :=
  if first ≤ maxArraySize ∧ t.array.size < last then min last maxArraySize else t.array.size

def bulkOverflow (size first last : Nat) : Nat :=
  if size < first then last + 1 - first else last - size

def freeCount (t : Table) : (limit n : Nat) → Nat
  | 0, _ => 0
  | _, 0 => 0
  | limit + 1, n + 1 =>
    if (t.slot n).isFree then t.freeCount limit n + 1 else t.freeCount (limit + 1) n

theorem freeCount_eq (t : Table) (limit n : Nat) :
    t.freeCount limit n = min limit ((List.range n).countP fun i => (t.slot i).isFree) := by
  induction n generalizing limit with
  | zero => cases limit <;> simp [freeCount]
  | succ n ih =>
    cases limit with
    | zero => simp [freeCount]
    | succ limit =>
      by_cases h : (t.slot n).isFree = true <;>
        simp [freeCount, h, ih, List.range_succ, List.countP_append]

/-- The hash size with room for `extra` more keys. Free slots are counted only if enough of them
may be left. -/
def bulkHashSize (t : Table) (extra : Nat) : Nat :=
  if extra = 0 then t.slots.size
  else if t.lastFree < 2 * extra then t.slots.size + extra
  else t.slots.size + (extra - t.freeCount extra t.lastFree)

def writeRun (t : Table) (c : Collector) : Nat → List Value → Table × Collector
  | _, [] => (t, c)
  | i, v :: vs => (t.write (.array i) v).writeRun (c.noteStored .table v) (i + 1) vs

def setRun (h : StringHash) (t : Table) (c : Collector) : Nat → List Value → Outcome Unit
  | _, [] => ⟨.ok (), t, c⟩
  | n, v :: vs =>
    match t.setInt h c n v with
    | ⟨.ok _, t, c⟩ => t.setRun h c (n + 1) vs
    | failed => failed

def storeRun (h : StringHash) (t : Table) (c : Collector) (n : Nat) (values : List Value) :
    Outcome Unit :=
  let inside := t.array.size + 1 - n
  let (t, c) := t.writeRun c (n - 1) (values.take inside)
  t.setRun h c (n + inside) (values.drop inside)

/-- Stores values under `first, first + 1, …`, growing the table at most once for the whole run. -/
def setList (h : StringHash) (t : Table) (c : Collector) (first : Int) (values : List Value) :
    Outcome Unit :=
  if first < 1 then ⟨.error .invalidListStart, t, c⟩
  else if values.isEmpty then ⟨.ok (), t, c⟩
  else if maxInteger < first + values.length - 1 then ⟨.error .invalidListCount, t, c⟩
  else
    let start := first.toNat
    let last := start + values.length - 1
    let arraySize := t.bulkArraySize start last
    let hashSize := t.bulkHashSize (bulkOverflow arraySize start last)
    let grown : Outcome Unit :=
      if t.array.size < arraySize ∨ t.slots.size < hashSize then t.resize h c arraySize hashSize
      else ⟨.ok (), t, c⟩
    match grown with
    | ⟨.ok _, t, c⟩ => t.storeRun h c start values
    | failed => failed

end Table

end LuaData
