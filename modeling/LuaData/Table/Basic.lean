import LuaData.Collector
import LuaData.Table.Order
import LuaData.Table.Position

namespace LuaData

inductive TableError where
  | nilIndex
  | nanIndex
  | overflow
  | invalidNextKey
  | invalidListStart
  | invalidListCount
  | outOfMemory
  deriving DecidableEq, Inhabited

def TableError.message : TableError → String
  | nilIndex => "table index is nil"
  | nanIndex => "table index is NaN"
  | overflow => "table overflow"
  | invalidNextKey => "invalid key to 'next'"
  | invalidListStart => "invalid firstkey to 'setlist'"
  | invalidListCount => "invalid count to 'setlist'"
  | outOfMemory => "not enough memory"

/-- A slot of the hash part. It is free while its key is nil, and its entry is cleared while its
value is nil. `chain` is the next slot of the same collision chain. -/
structure Slot where
  key : Value := .nil
  value : Value := .nil
  chain : Option Nat := none
  deriving DecidableEq, Inhabited

namespace Slot

def isFree (s : Slot) : Bool := s.key.isNil

def isLive (s : Slot) : Bool := !s.value.isNil

end Slot

/-- A table: an array part for the keys `1, 2, …` up to its size and a hash part for all others.
A key of the hash part that is not at its main position finds there a key that is. -/
structure Table where
  array : Array Value
  slots : Array Slot
  /-- No slot from here on is free. -/
  lastFree : Nat
  order : Order
  metatable : Option ObjectId
  deriving DecidableEq, Inhabited

inductive Cell where
  | array (i : Nat)
  | slot (i : Nat)
  deriving DecidableEq, Inhabited

structure Outcome (α : Type) where
  result : Except TableError α
  table : Table
  collector : Collector

namespace Table

def maxArraySize : Nat := 1 <<< 26

def maxHashSize : Nat := 1 <<< 30

def empty : Table where
  array := #[]
  slots := #[]
  lastFree := 0
  order := Order.empty 0
  metatable := none

def slot (t : Table) (i : Nat) : Slot := t.slots.getD i {}

def setSlot (t : Table) (i : Nat) (s : Slot) : Table :=
  { t with slots := t.slots.setIfInBounds i s }

def setChain (t : Table) (i : Nat) (next : Option Nat) : Table :=
  t.setSlot i { t.slot i with chain := next }

def read (t : Table) : Cell → Value
  | .array i => t.array.getD i .nil
  | .slot i => (t.slot i).value

def write (t : Table) (c : Cell) (v : Value) : Table :=
  match c with
  | .array i => { t with array := t.array.setIfInBounds i v }
  | .slot i => t.setSlot i { t.slot i with value := v }

def moveToEnd (t : Table) (i : Nat) : Table := { t with order := t.order.moveToEnd i }

/-- Looking at a cleared entry makes it the most recent one. -/
def touch (t : Table) : Cell → Table
  | .array _ => t
  | .slot i => if (t.slot i).isLive then t else t.moveToEnd i

def arrayCount (t : Table) : Nat := t.array.countP fun v => !v.isNil

def slotItem? (t : Table) (i : Nat) : Option (Value × Value) :=
  if (t.slot i).isLive then some ((t.slot i).key, (t.slot i).value) else none

def slotEntries (t : Table) : List (Value × Value) := t.order.toList.filterMap t.slotItem?

/-- The number of present entries; `fuzzy` takes every array cell for one. -/
def count (t : Table) (fuzzy : Bool) : Nat :=
  (if fuzzy then t.array.size else t.arrayCount) + t.slotEntries.length

def setMetatable (t : Table) (c : Collector) (meta? : Option ObjectId) : Table × Collector :=
  ({ t with metatable := meta? },
    match meta? with
    | some o => c.barrier .table (.object o)
    | none => c)

def release (t : Table) (c : Collector) : Collector :=
  let c := if t.array.isEmpty then c else c.free .arrayPart t.array.size
  if t.slots.isEmpty then c else c.free .hashPart t.slots.size

end Table

end LuaData
