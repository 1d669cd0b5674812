import LuaData.Verification

namespace LuaData.Chunk

def littleEndian : Nat → Nat → List UInt8
  | 0, _ => []
  | width + 1, n => UInt8.ofNat n :: littleEndian width (n / 256)

def ofLittleEndian (bytes : List UInt8) : Nat := bytes.foldr (fun b n => b.toNat + 256 * n) 0

theorem length_littleEndian (width n : Nat) : (littleEndian width n).length = width := by
  induction width generalizing n with
  | zero => rfl
  | succ width ih => simp [littleEndian, ih]

/-- The low `8 * width` bits of a number survive. -/
theorem ofLittleEndian_littleEndian (width n : Nat) :
    ofLittleEndian (littleEndian width n) = n % (1 <<< (8 * width)) := by
  induction width generalizing n with
  | zero => simp [littleEndian, ofLittleEndian, Nat.mod_one]
  | succ width ih =>
    have h : ofLittleEndian (littleEndian (width + 1) n) =
        n % 256 + 256 * ofLittleEndian (littleEndian width (n / 256)) := by
      simp [littleEndian, ofLittleEndian]
    have hshift : 1 <<< (8 * (width + 1)) = 256 * 1 <<< (8 * width) := by
      rw [Nat.one_shiftLeft, Nat.one_shiftLeft, Nat.mul_add, Nat.pow_add, Nat.mul_comm]
    rw [h, ih, hshift, Nat.mod_mul]

def signature : List UInt8 := [0x1b, 0x4c, 0x75, 0x61]

def version : UInt8 := 0x52

def format : UInt8 := 0

/-- Byte order, the sizes of an int, a size, an instruction and a number, and whether numbers are
integral. -/
def platform : List UInt8 := [1, 4, 8, 4, 8, 0]

/-- Bytes that conversions of line ends and the like would change. -/
def tail : List UInt8 := [0x19, 0x93, 0x0d, 0x0a, 0x1a, 0x0a]

def header : List UInt8 := signature ++ [version, format] ++ platform ++ tail

def maxCount : Nat := 0x7fffffff

def maxDepth : Nat := 200

inductive Cause where
  | notAChunk
  | versionMismatch
  | incompatible
  | corrupted
  | truncated
  | tooDeep
  | invalidBytecode (fault : Fault)
  deriving DecidableEq, Inhabited

def Cause.message : Cause → String
  | notAChunk => "not a precompiled chunk"
  | versionMismatch => "version mismatch in precompiled chunk"
  | incompatible => "incompatible precompiled chunk"
  | corrupted => "corrupted precompiled chunk"
  | truncated => "truncated precompiled chunk"
  | tooDeep => "too many nested functions in precompiled chunk"
  | invalidBytecode fault =>
    s!"invalid bytecode in precompiled chunk ({fault.reason.message} at pc {fault.pc})"

structure Rejection where
  chunk : String
  cause : Cause
  deriving DecidableEq, Inhabited

def Rejection.message (r : Rejection) : String := r.chunk ++ ": " ++ r.cause.message

/-- What is wrong with a header: the first region that differs from the expected one. -/
def headerFault? (h : List UInt8) : Option Cause :=
  if h = header then none
  else if h.take 4 ≠ header.take 4 then some .notAChunk
  else if h.take 6 ≠ header.take 6 then some .versionMismatch
  else if h.take 12 ≠ header.take 12 then some .incompatible
  else some .corrupted

/-- The name of a chunk in messages. A mark in front of it is dropped, and what is itself a chunk
has no name. -/
def displayName (name : String) : String :=
  match name.toList with
  | '@' :: rest | '=' :: rest => String.ofList rest
  | '\x1b' :: _ => "binary string"
  | _ => name

end LuaData.Chunk
