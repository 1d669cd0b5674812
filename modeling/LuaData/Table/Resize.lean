import LuaData.Table.Lookup

namespace LuaData

namespace Table

def freeBelow (t : Table) : Nat → Option Nat
  | 0 => none
  | n + 1 => if (t.slot n).isFree then some n else t.freeBelow n

def predecessor (t : Table) (target : Nat) : Nat → Nat → Nat
  | 0, i => i
  | fuel + 1, i =>
    match (t.slot i).chain with
    | none => i
    | some j => if j = target then i else t.predecessor target fuel j

def move (t : Table) (i free : Nat) : Table :=
  let s := t.slot i
  let t := (t.setSlot free s).setSlot i {}
  { t with order := t.order.transplant i free }

/-- Makes room for a key whose main position `i` is taken, with the help of a free slot. An
occupant at its own main position stays, and the free slot is chained after it for the new key.
Any other occupant moves to the free slot. -/
def makeRoom (h : StringHash) (t : Table) (i free : Nat) : Nat × Table :=
  let home := (t.slot i).key.mainPosition h t.slots.size
  if home = i then (free, (t.setChain free (t.slot i).chain).setChain i (some free))
  else
    let before := t.predecessor i t.slots.size home
    (i, (t.setChain before (some free)).move i free)

def place? (h : StringHash) (t : Table) (k : Value) : Option (Nat × Table) :=
  match t.home? h k with
  | none => none
  | some i =>
    if (t.slot i).isLive then
      (t.freeBelow t.lastFree).map fun free => { t with lastFree := free }.makeRoom h i free
    else some (i, t)

def occupy (t : Table) (i : Nat) (k : Value) : Table :=
  (t.moveToEnd i).setSlot i { t.slot i with key := k }

def insert? (h : StringHash) (t : Table) (k : Value) : Option (Nat × Table) :=
  (t.place? h k).map fun (i, t) => (i, t.occupy i k)

def reinsert (h : StringHash) (t : Table) (entry : Value × Value) : Table :=
  match t.cell? h entry.1 with
  | some c => t.write c entry.2
  | none =>
    match t.insert? h entry.1 with
    | some (i, t) => t.write (.slot i) entry.2
    | none => t

def arrayEntries (t : Table) (i : Nat) : (n : Nat) → List (Value × Value) → List (Value × Value)
  | 0, es => es
  | n + 1, es => t.arrayEntries i n ((t.arrayItem? (i + n)).toList ++ es)

theorem arrayEntries_eq (t : Table) (i n : Nat) (es : List (Value × Value)) :
    t.arrayEntries i n es = (List.range' i n).filterMap t.arrayItem? ++ es := by
  induction n generalizing es with
  | zero => rfl
  | succ n ih =>
    rw [arrayEntries, ih, List.range'_concat]
    cases h : t.arrayItem? (i + n) <;> simp [h]

def displaced (t : Table) (size : Nat) : List (Value × Value) :=
  t.arrayEntries size (t.array.size - size) []

def inArray (size : Nat) (k : Value) : Bool :=
  match k.toInteger? with
  | some n => decide (1 ≤ n ∧ n ≤ size)
  | none => false

def overflowCount (t : Table) (size : Nat) : Nat :=
  (t.displaced size).length + (t.slotEntries.filter fun e => !inArray size e.1).length

/-- The least power of two that is at least `n`, and 0 for 0. -/
def capacity (n : Nat) : Nat := if n = 0 then 0 else if n = 1 then 1 else 1 <<< ((n - 1).log2 + 1)

/-- The entries that have to be stored anew beside an array part of `size` cells: those that the
array part loses, then those of the hash part from the oldest on. -/
def entriesToMove (t : Table) (size : Nat) : List (Value × Value) :=
  t.displaced size ++ t.slotEntries

def bare (t : Table) (arraySize hashSize : Nat) : Table :=
  { t with
    array := t.array.take arraySize ++ Array.replicate (arraySize - t.array.size) .nil
    slots := Array.replicate hashSize {}
    lastFree := hashSize
    order := Order.empty hashSize }

def rebuild (h : StringHash) (t : Table) (arraySize hashSize : Nat) : Table :=
  (t.entriesToMove arraySize).foldl (reinsert h) (t.bare arraySize hashSize)

def noteKeys (c : Collector) (entries : List (Value × Value)) : Collector :=
  entries.foldl (fun c e => c.noteStored .table e.1) c

/-- Asks for the parts of a resized table: the new hash part, then the changed array part. What was
granted before a refusal is given back. -/
def requestParts (t : Table) (c : Collector) (arraySize hashSize : Nat) : Bool × Collector :=
  let (granted, c) := if hashSize = 0 then (true, c) else c.alloc .hashPart hashSize
  if !granted then (false, c)
  else if arraySize = t.array.size then (true, c)
  else
    match c.realloc .arrayPart t.array.size arraySize with
    | (true, c) => (true, c)
    | (false, c) => (false, if hashSize = 0 then c else c.free .hashPart hashSize)

/-- Resizes both parts. The hash part is never smaller than the entries it has to take back, so
that storing them again always finds room. -/
def resize (h : StringHash) (t : Table) (c : Collector) (arraySize hashSize : Nat) : Outcome Unit :=
  let arraySize := min arraySize maxArraySize
  let needed := max hashSize (t.overflowCount arraySize)
  if maxHashSize < needed then ⟨.error .overflow, t, c⟩
  else
    let hashSize := capacity needed
    match t.requestParts c arraySize hashSize with
    | (false, c) => ⟨.error .outOfMemory, t, c⟩
    | (true, c) =>
      let c := noteKeys c (t.entriesToMove arraySize)
      let c := if t.slots.isEmpty then c else c.free .hashPart t.slots.size
      ⟨.ok (), t.rebuild h arraySize hashSize, c⟩

def resizeArray (h : StringHash) (t : Table) (c : Collector) (arraySize : Nat) : Outcome Unit :=
  t.resize h c arraySize t.slots.size

def withCapacity (h : StringHash) (c : Collector) (arraySize hashSize : Nat) : Outcome Unit :=
  if arraySize = 0 ∧ hashSize = 0 then ⟨.ok (), empty, c⟩ else empty.resize h c arraySize hashSize

def arrayCandidate? (k : Value) : Option Nat :=
  match k.toInteger? with
  | some n => if 1 ≤ n ∧ n ≤ maxArraySize then some n.toNat else none
  | none => none

end Table

end LuaData
