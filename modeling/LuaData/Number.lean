namespace LuaData

/-- A double, kept as its 64 bits so that every payload survives a copy. -/
structure Number where
  bits : UInt64
  deriving DecidableEq, Inhabited

namespace Number

def exponent (x : Number) : Nat := (x.bits.toNat >>> 52) % 2048

def fraction (x : Number) : Nat := x.bits.toNat % (1 <<< 52)

def negative (x : Number) : Bool := decide (1 <<< 63 ≤ x.bits.toNat)

def isNaN (x : Number) : Bool := x.exponent == 2047 && x.fraction != 0

def isInfinite (x : Number) : Bool := x.exponent == 2047 && x.fraction == 0

def isZero (x : Number) : Bool := x.exponent == 0 && x.fraction == 0

/-- A finite number is `significand * 2 ^ scale` in magnitude. -/
def significand (x : Number) : Nat :=
  if x.exponent = 0 then x.fraction else x.fraction + 1 <<< 52

def scale (x : Number) : Int := (max x.exponent 1 : Nat) - 1075

def signed (x : Number) (n : Nat) : Int := if x.negative then -n else n

def equal (x y : Number) : Bool :=
  !x.isNaN && !y.isNaN && (x.bits == y.bits || (x.isZero && y.isZero))

/-- The integer denoted by `x`, of whatever size; absent for fractions, infinities and NaN. -/
def toInt? (x : Number) : Option Int :=
  if x.exponent = 2047 then none
  else if 0 ≤ x.scale then some (x.signed (x.significand <<< x.scale.toNat))
  else
    let drop := (-x.scale).toNat
    if x.significand % (1 <<< drop) = 0 then some (x.signed (x.significand >>> drop)) else none

def toInteger? (x : Number) : Option Int :=
  x.toInt?.filter fun n => decide (-0x8000000000000000 ≤ n ∧ n < 0x8000000000000000)

/-- `n` halved `drop` times in one step, to the nearest integer and from a tie to the even one. -/
def roundShift (n drop : Nat) : Nat :=
  let quotient := n >>> drop
  let twice := 2 * (n % (1 <<< drop))
  if 1 <<< drop < twice ∨ (twice = 1 <<< drop ∧ quotient % 2 = 1) then quotient + 1 else quotient

/-- The 53-bit significand of a positive `n` whose top bit is bit `top`; rounding may carry to
`2 ^ 53`. -/
def leading (n top : Nat) : Nat :=
  if top ≤ 52 then n <<< (52 - top) else roundShift n (top - 52)

/-- The bits of the double nearest to `n`. A carry out of the significand raises the exponent by
itself. -/
def magnitudeBits (n : Nat) : Nat :=
  if n = 0 then 0
  else if 1024 ≤ n.log2 then 2047 <<< 52
  else (n.log2 + 1022) <<< 52 + leading n n.log2

def ofInt (n : Int) : Number :=
  ⟨UInt64.ofNat (magnitudeBits n.natAbs + if n < 0 then 1 <<< 63 else 0)⟩

/-- Folds a signed 32-bit word to a non-negative one; the least word has no counterpart and
gives 0. -/
def foldSign (i : Int) : Nat := if i = -0x80000000 then 0 else i.natAbs

/-- The hash of a number key: its leading 31 bits plus its binary exponent, wrapped to 32 bits
and folded non-negative. Equal numbers hash alike. -/
def hash (x : Number) : Nat :=
  if x.isZero || x.isNaN then 0
  else if x.isInfinite then (if x.negative then 0 else 1)
  else
    let top := x.significand.log2
    let lead := x.signed ((x.significand <<< 30) >>> top)
    foldSign ((lead + (top + 1 + x.scale)).bmod 0x100000000)

end Number

end LuaData
