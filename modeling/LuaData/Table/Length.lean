import LuaData.Table.Lookup

namespace LuaData

namespace Table

/-- A border between `i`, whose cell is 0 or present, and `j`, whose cell is absent. -/
def arrayBorder (t : Table) : Nat → Nat → Nat → Nat
  | 0, i, _ => i
  | fuel + 1, i, j =>
    if j ≤ i + 1 then i
    else
      let m := (i + j) / 2
      if (t.array.getD (m - 1) .nil).isNil then t.arrayBorder fuel i m else t.arrayBorder fuel m j

def hasInt (h : StringHash) (t : Table) (n : Nat) : Bool × Table :=
  let (v, t) := t.getInt h n
  (v.isSome, t)

/-- The border between `i`, which is 0 or present, and `j`, which is absent, by halving. -/
def borderBetween (h : StringHash) : Nat → Table → Nat → Nat → Nat × Table
  | 0, t, i, _ => (i, t)
  | fuel + 1, t, i, j =>
    if j ≤ i + 1 then (i, t)
    else
      let m := (i + j) / 2
      match t.hasInt h m with
      | (true, t) => borderBetween h fuel t m j
      | (false, t) => borderBetween h fuel t i m

def lastPresentFrom (h : StringHash) : Nat → Table → Nat → Nat × Table
  | 0, t, i => (i - 1, t)
  | fuel + 1, t, i =>
    match t.hasInt h i with
    | (true, t) => lastPresentFrom h fuel t (i + 1)
    | (false, t) => (i - 1, t)

def probeLimit : Nat := 0x7fffffff

/-- Doubles `j` until it is absent. A table that reaches beyond the bound is searched key by key. -/
def borderBeyond (h : StringHash) : Nat → Table → Nat → Nat → Nat × Table
  | 0, t, i, _ => (i, t)
  | fuel + 1, t, i, j =>
    match t.hasInt h j with
    | (false, t) => borderBetween h (j - i) t i j
    | (true, t) =>
      if probeLimit < 2 * j then lastPresentFrom h (t.array.size + t.slots.size + 1) t 1
      else borderBeyond h fuel t j (2 * j)

/-- A border: a present key, or 0, whose successor is absent. -/
def length (h : StringHash) (t : Table) : Nat × Table :=
  let size := t.array.size
  if 0 < size ∧ (t.array.getD (size - 1) .nil).isNil then (t.arrayBorder size 0 size, t)
  else if t.slots.isEmpty then (size, t)
  else borderBeyond h 32 t size (size + 1)

end Table

end LuaData
