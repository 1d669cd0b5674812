import LuaData.Table.Resize

namespace LuaData

/-- The keys in use: how many there are, how many of them may live in an array part, and how many of
these are in each slice. Slice 0 is the key 1, and slice `i + 1` has the keys above `2 ^ i` and up
to `2 ^ (i + 1)`. -/
structure Census where
  used : Nat
  candidates : Nat
  slices : List Nat
  deriving DecidableEq, Inhabited

namespace Census

def sliceCount : Nat := 27

def sliceOf (n : Nat) : Nat := if n ≤ 1 then 0 else (n - 1).log2 + 1

def add (s : Census) (k : Value) : Census :=
  match Table.arrayCandidate? k with
  | some n =>
    { used := s.used + 1
      candidates := s.candidates + 1
      slices := s.slices.modify (sliceOf n) (· + 1) }
  | none => { s with used := s.used + 1 }

/-- Goes on from `best`, the best size so far with the number of keys that it takes. The next slice
ends at `top`, and the slices before it have `below` keys. It ends early if what is left could not
fill half of a larger part. -/
def chooseFrom (candidates : Nat) :
    (top below : Nat) → (best : Nat × Nat) → (slices : List Nat) → Nat × Nat
  | _, _, best, [] => best
  | top, below, best, n :: slices =>
    if candidates ≤ top / 2 then best
    else
      let below := below + n
      let best := if 0 < n ∧ top / 2 < below then (top, below) else best
      if below = candidates then best else chooseFrom candidates (2 * top) below best slices

/-- The size for the array part, of which more than half is to be in use, with the number of keys
that it takes. -/
def choose (s : Census) : Nat × Nat := chooseFrom s.candidates 1 0 (0, 0) s.slices

end Census

namespace Table

def usedBetween (t : Table) (low high : Nat) : Nat :=
  (t.array.extract low high).countP fun v => !v.isNil

def sliceArray (t : Table) : (low top : Nat) → (slices : List Nat) → List Nat × Nat
  | _, _, [] => ([], 0)
  | low, top, n :: slices =>
    if t.array.size < top ∧ t.array.size ≤ low then (n :: slices, 0)
    else
      let high := min top t.array.size
      let used := t.usedBetween low high
      let (slices, total) := t.sliceArray high (2 * top) slices
      ((n + used) :: slices, used + total)

def arrayCensus (t : Table) : Census :=
  let (slices, total) := t.sliceArray 0 1 (List.replicate Census.sliceCount 0)
  { used := total, candidates := total, slices }

def census (t : Table) (extra : Value) : Census :=
  (t.slots.foldl (fun s x => if x.isLive then s.add x.key else s) t.arrayCensus).add extra

def rehash (h : StringHash) (t : Table) (c : Collector) (extra : Value) : Outcome Unit :=
  let s := t.census extra
  let (arraySize, inside) := s.choose
  let hashSize := s.used - inside
  let c := c.log .debug
    s!"table rehash: array {t.array.size} -> {arraySize}, hash {t.slots.size} -> {hashSize}"
  t.resize h c arraySize hashSize

end Table

end LuaData
