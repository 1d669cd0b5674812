namespace LuaData

inductive Block where
  | arrayPart
  | hashPart
  | prototype
  | code
  | constants
  | children
  | upvalues
  | lineInfo
  | locals
  | stringBytes
  deriving DecidableEq, Inhabited

namespace Block

def elementSize : Block → Nat
  | arrayPart => 16
  | hashPart => 56
  | prototype => 168
  | code => 4
  | constants => 16
  | children => 8
  | upvalues => 16
  | lineInfo => 4
  | locals => 16
  | stringBytes => 1

def label : Block → String
  | arrayPart => "ArrayPart"
  | hashPart => "HashPart"
  | prototype => "Proto"
  | code => "Code"
  | constants => "Constants"
  | children => "Protos"
  | upvalues => "Upvalues"
  | lineInfo => "LineInfo"
  | locals => "LocVars"
  | stringBytes => "StringBytes"

def all : List Block :=
  [arrayPart, hashPart, prototype, code, constants, children, upvalues, lineInfo, locals,
    stringBytes]

/-- The largest signed 64-bit word, at which sizes saturate. -/
def byteLimit : Nat := 0x7fffffffffffffff

def bytes (b : Block) (count : Nat) : Nat := min (count * b.elementSize) byteLimit

end Block

end LuaData
