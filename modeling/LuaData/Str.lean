namespace LuaData

/-- A handle on an immutable byte string: where it was made and what it holds. -/
structure Str where
  pool : Nat
  serial : Nat
  bytes : List UInt8
  deriving DecidableEq, Inhabited

namespace Str

def shortLimit : Nat := 40

def length (s : Str) : Nat := s.bytes.length

def isShort (s : Str) : Bool := decide (s.length ≤ shortLimit)

def mix (acc : UInt64) (b : UInt8) : UInt64 := (acc ^^^ b.toUInt64) * 0x100000001b3

def contentHash (bytes : List UInt8) : UInt64 := bytes.foldl mix 0xcbf29ce484222325

/-- Equality of strings: short ones by identity, long ones by content. -/
def equal (s t : Str) : Bool := decide (s = t) || (!s.isShort && s.bytes == t.bytes)

theorem equal_iff {s t : Str} :
    s.equal t = true ↔ s = t ∨ (s.isShort = false ∧ s.bytes = t.bytes) := by
  simp [equal]

theorem equal_refl (s : Str) : s.equal s = true := by simp [equal]

end Str

end LuaData
