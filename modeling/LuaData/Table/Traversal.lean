import LuaData.Table.Update

namespace LuaData

namespace Table

inductive Resume where
  | array (i : Nat)
  | slot (i? : Option Nat)

/-- Where a traversal goes on after a key; nil starts it. The key may be a cleared one. -/
def resume (h : StringHash) (t : Table) (k : Value) : Except TableError Resume :=
  if k.isNil then .ok (.array 0)
  else
    match t.arrayIndex? k with
    | some i => .ok (.array (i + 1))
    | none =>
      match t.findSlot h k with
      | some i => .ok (.slot (t.order.next i))
      | none => .error .invalidNextKey

def arrayEntryAmong (t : Table) : (n i : Nat) → Option (Value × Value)
  | 0, _ => none
  | n + 1, i =>
    match t.arrayItem? i with
    | some e => some e
    | none => t.arrayEntryAmong n (i + 1)

theorem arrayEntryAmong_eq (t : Table) (n i : Nat) :
    t.arrayEntryAmong n i = (List.range' i n).findSome? t.arrayItem? := by
  induction n generalizing i with
  | zero => rfl
  | succ n ih =>
    rw [arrayEntryAmong, List.range'_succ, List.findSome?_cons, ih]
    cases t.arrayItem? i <;> rfl

def arrayEntryFrom (t : Table) (i : Nat) : Option (Value × Value) :=
  t.arrayEntryAmong (t.array.size - i) i

def slotEntryFrom (t : Table) : (fuel : Nat) → (i? : Option Nat) → Option (Value × Value)
  | 0, _ => none
  | _, none => none
  | fuel + 1, some i =>
    match t.slotItem? i with
    | some e => some e
    | none => t.slotEntryFrom fuel (t.order.next i)

def next (h : StringHash) (t : Table) (k : Value) : Except TableError (Option (Value × Value)) :=
  match t.resume h k with
  | .error e => .error e
  | .ok (.array i) => .ok ((t.arrayEntryFrom i).or (t.slotEntryFrom t.slots.size t.order.first))
  | .ok (.slot i?) => .ok (t.slotEntryFrom t.slots.size i?)

def entriesAfter (h : StringHash) (t : Table) : Nat → Value → List (Value × Value)
  | 0, _ => []
  | fuel + 1, k =>
    match t.next h k with
    | .ok (some e) => e :: t.entriesAfter h fuel e.1
    | _ => []

def entries (h : StringHash) (t : Table) : List (Value × Value) :=
  t.entriesAfter h (t.array.size + t.slots.size + 1) .nil

end Table

end LuaData
