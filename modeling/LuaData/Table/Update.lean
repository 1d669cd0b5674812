import LuaData.Table.Rehash

namespace LuaData

namespace Table

def keyError? : Value → Option TableError
  | .nil => some .nilIndex
  | .number x => if x.isNaN then some .nanIndex else none
  | _ => none

/-- Gives a cell to a key that has none. Where there is no room, both parts are sized anew, which
makes room for this key. -/
def create (h : StringHash) (t : Table) (c : Collector) (k : Value) : Outcome Cell :=
  match t.insert? h k with
  | some (i, t) => ⟨.ok (.slot i), t, c.noteStored .table k⟩
  | none =>
    match ({ t with lastFree := 0 } : Table).rehash h c k with
    | ⟨.error e, t, c⟩ => ⟨.error e, t, c⟩
    | ⟨.ok _, t, c⟩ =>
      match t.cell? h k with
      | some cell => ⟨.ok cell, t.touch cell, c⟩
      | none =>
        match t.insert? h k with
        | some (i, t) => ⟨.ok (.slot i), t, c.noteStored .table k⟩
        | none => ⟨.error .overflow, t, c⟩

/-- The cell of a key, created if it is missing. Who stores into it owes the collector a barrier. -/
def cellFor (h : StringHash) (t : Table) (c : Collector) (k : Value) : Outcome Cell :=
  match keyError? k with
  | some e => ⟨.error e, t, c⟩
  | none =>
    match t.cell? h k with
    | some cell => ⟨.ok cell, t.touch cell, c⟩
    | none => t.create h c k

def store (t : Table) (c : Collector) (cell : Cell) (v : Value) : Outcome Unit :=
  ⟨.ok (), t.write cell v, c.noteStored .table v⟩

/-- Stores a value under a key. Storing nil under a missing key creates nothing. -/
def set (h : StringHash) (t : Table) (c : Collector) (k v : Value) : Outcome Unit :=
  if (keyError? k).isNone && (t.cell? h k).isNone && v.isNil then ⟨.ok (), t, c⟩
  else
    match t.cellFor h c k with
    | ⟨.error e, t, c⟩ => ⟨.error e, t, c⟩
    | ⟨.ok cell, t, c⟩ => t.store c cell v

def setInt (h : StringHash) (t : Table) (c : Collector) (n : Int) (v : Value) : Outcome Unit :=
  t.set h c (.integer n) v

end Table

end LuaData
