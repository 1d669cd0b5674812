import LuaData.Table.Basic

namespace LuaData

def Value.present? (v : Value) : Option Value := if v.isNil then none else some v

namespace Table

def arrayItem? (t : Table) (i : Nat) : Option (Value × Value) :=
  (t.array.getD i .nil).present?.map fun v => (.integer (i + 1), v)

def home? (h : StringHash) (t : Table) (k : Value) : Option Nat :=
  if t.slots.isEmpty then none else some (k.mainPosition h t.slots.size)

def follow (t : Table) (p : Slot → Bool) : Nat → Nat → Option Nat
  | 0, _ => none
  | fuel + 1, i =>
    if p (t.slot i) then some i
    else
      match (t.slot i).chain with
      | none => none
      | some j => t.follow p fuel j

/-- The first slot on the chain of `k` that satisfies `p`. A chain is no longer than the hash
part. -/
def search (h : StringHash) (t : Table) (k : Value) (p : Slot → Bool) : Option Nat :=
  (t.home? h k).bind (t.follow p t.slots.size)

def findSlot (h : StringHash) (t : Table) (k : Value) : Option Nat :=
  t.search h k fun s => s.key.equal k

def arrayIndex? (t : Table) (k : Value) : Option Nat :=
  match k.toInteger? with
  | some n => if 1 ≤ n ∧ n ≤ t.array.size then some (n.toNat - 1) else none
  | none => none

def cell? (h : StringHash) (t : Table) (k : Value) : Option Cell :=
  match t.arrayIndex? k with
  | some i => some (.array i)
  | none => if k.isNil then none else (t.findSlot h k).map .slot

def visit (t : Table) : Option Cell → Option Value × Table
  | none => (none, t)
  | some c => ((t.read c).present?, t.touch c)

def get (h : StringHash) (t : Table) (k : Value) : Option Value × Table := t.visit (t.cell? h k)

def getInt (h : StringHash) (t : Table) (n : Int) : Option Value × Table :=
  if 1 ≤ n ∧ n ≤ t.array.size then t.visit (some (.array (n.toNat - 1)))
  else t.visit ((t.findSlot h (.integer n)).map .slot)

/-- The value of a string key. A short one is found by identity alone. -/
def getStr (h : StringHash) (t : Table) (s : Str) : Option Value × Table :=
  if s.isShort then
    t.visit ((t.search h (.string s) fun x => x.key == .string s).map .slot)
  else t.get h (.string s)

end Table

end LuaData
