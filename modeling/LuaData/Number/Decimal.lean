import LuaData.Number

namespace LuaData

structure Decimal where
  digits : Nat
  exponent : Int
  deriving DecidableEq, Inhabited

namespace Decimal

def strip : Nat → Decimal → Decimal
  | 0, d => d
  | fuel + 1, d =>
    if d.digits % 10 = 0 then strip fuel ⟨d.digits / 10, d.exponent + 1⟩ else d

def positional (d : Decimal) : String :=
  let ds := Nat.toDigits 10 d.digits
  if 0 ≤ d.exponent then String.ofList (ds ++ List.replicate d.exponent.toNat '0')
  else
    let places := (-d.exponent).toNat
    let padded := List.replicate (places + 1 - ds.length) '0' ++ ds
    let whole := padded.length - places
    String.ofList (padded.take whole ++ '.' :: padded.drop whole)

end Decimal

/-- The reals between `low * 2 ^ scale` and `high * 2 ^ scale` around `mid * 2 ^ scale`,
ends included if `closed`. -/
structure Neighbourhood where
  low : Nat
  mid : Nat
  high : Nat
  scale : Int
  closed : Bool

namespace Neighbourhood

/-- The point `c * 10 ^ k` is left of `x * 2 ^ scale` iff `c * (leftUnit k) < x * (rightUnit k)`. -/
def leftUnit (r : Neighbourhood) (k : Int) : Nat := Nat.pow 10 k.toNat <<< (-r.scale).toNat

def rightUnit (r : Neighbourhood) (k : Int) : Nat := Nat.pow 10 (-k).toNat <<< r.scale.toNat

def contains (r : Neighbourhood) (k : Int) (c : Nat) : Bool :=
  let x := c * r.leftUnit k
  let low := r.low * r.rightUnit k
  let high := r.high * r.rightUnit k
  if r.closed then decide (low ≤ x ∧ x ≤ high) else decide (low < x ∧ x < high)

/-- The multiple of `10 ^ k` in the neighbourhood that is nearest to its middle. Of two equally
near ones the larger is taken. -/
def nearest? (r : Neighbourhood) (k : Int) : Option Nat :=
  let mid := r.mid * r.rightUnit k
  let c := mid / r.leftUnit k
  match r.contains k c, r.contains k (c + 1) with
  | true, true =>
    if mid - c * r.leftUnit k < (c + 1) * r.leftUnit k - mid then some c else some (c + 1)
  | true, false => some c
  | false, true => some (c + 1)
  | false, false => none

/-- The `e` with `10 ^ (e - 1) ≤ mid * 2 ^ scale < 10 ^ e`. -/
def order (r : Neighbourhood) : Int :=
  let num := r.mid <<< r.scale.toNat
  let den := 1 <<< (-r.scale).toNat
  let e : Int := (Nat.toDigits 10 num).length - (Nat.toDigits 10 den).length
  if den * Nat.pow 10 e.toNat ≤ num * Nat.pow 10 (-e).toNat then e + 1 else e

/-- The decimal of the fewest digits in the neighbourhood, and of those the nearest to its middle.
Seventeen digits always suffice for a double. -/
def shortest (r : Neighbourhood) : Decimal :=
  let found := (List.range 17).findSome? fun n =>
    let k : Int := r.order - (n + 1 : Nat)
    (r.nearest? k).map fun c => Decimal.strip 17 ⟨c, k⟩
  found.getD ⟨0, 0⟩

end Neighbourhood

namespace Number

/-- The reals that round to a finite `x`, in quarter units of its significand. A power of two has
its lower neighbour at half the distance, and ties round to an even significand. -/
def neighbourhood (x : Number) : Neighbourhood where
  low := 4 * x.significand - if x.fraction = 0 ∧ 1 < x.exponent then 1 else 2
  mid := 4 * x.significand
  high := 4 * x.significand + 2
  scale := x.scale - 2
  closed := x.significand % 2 == 0

def text (x : Number) : String :=
  if x.isNaN then "NaN"
  else
    let magnitude :=
      if x.isInfinite then "inf"
      else if x.isZero then "0"
      else x.neighbourhood.shortest.positional
    if x.negative then "-" ++ magnitude else magnitude

end Number

end LuaData
