import LuaData.Opcode

namespace LuaData

structure Field where
  position : Nat
  size : Nat
  size_pos : 0 < size := by decide
  size_lt : size < 32 := by decide
  end_le : position + size ≤ 32 := by decide
  deriving DecidableEq

namespace Field

def op : Field := { position := 0, size := 6 }
def a : Field := { position := 6, size := 8 }
def b : Field := { position := 23, size := 9 }
def c : Field := { position := 14, size := 9 }
def bx : Field := { position := 14, size := 18 }
def ax : Field := { position := 6, size := 26 }

def ones (size position : Nat) : UInt32 :=
  (~~~(~~~0 <<< UInt32.ofNat size)) <<< UInt32.ofNat position

def mask (f : Field) : UInt32 := ones f.size f.position

end Field

structure Instruction where
  word : UInt32
  deriving DecidableEq, Inhabited

namespace Instruction

def get (i : Instruction) (f : Field) : Nat :=
  (i.word >>> UInt32.ofNat f.position &&& Field.ones f.size 0).toNat

/-- Replaces one field. Bits of `v` that do not fit it are cut. -/
def set (i : Instruction) (f : Field) (v : Nat) : Instruction :=
  ⟨i.word &&& ~~~f.mask ||| UInt32.ofNat v <<< UInt32.ofNat f.position &&& f.mask⟩

/-- The signed operand `sBx` is stored with this much added. -/
def sbxOffset : Nat := 131071

def a (i : Instruction) : Nat := i.get .a
def b (i : Instruction) : Nat := i.get .b
def c (i : Instruction) : Nat := i.get .c
def bx (i : Instruction) : Nat := i.get .bx
def ax (i : Instruction) : Nat := i.get .ax
def sbx (i : Instruction) : Int := i.bx - sbxOffset

def setSbx (i : Instruction) (v : Int) : Instruction :=
  i.set .bx ((v + sbxOffset) % (1 <<< Field.bx.size : Nat)).toNat

def opcodeNumber (i : Instruction) : Nat := i.get .op

def opcode? (i : Instruction) : Option Opcode := Opcode.ofNumber? i.opcodeNumber

def ofOpcode (o : Opcode) : Instruction := (⟨0⟩ : Instruction).set .op o.number

def ofABC (o : Opcode) (a b c : Nat) : Instruction :=
  (((ofOpcode o).set .a a).set .b b).set .c c

def ofABx (o : Opcode) (a bx : Nat) : Instruction := ((ofOpcode o).set .a a).set .bx bx

def ofAsBx (o : Opcode) (a : Nat) (sbx : Int) : Instruction := ((ofOpcode o).set .a a).setSbx sbx

def ofAx (o : Opcode) (ax : Nat) : Instruction := (ofOpcode o).set .ax ax

end Instruction

/-- An operand that names a register or a constant, told apart by its top bit. -/
inductive RK where
  | register (r : Nat)
  | constant (k : Nat)
  deriving DecidableEq, Inhabited

def RK.ofOperand (x : Nat) : RK :=
  if x.testBit 8 then .constant (x - 256) else .register x

end LuaData
