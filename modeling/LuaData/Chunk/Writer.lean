import LuaData.Chunk.Layout

namespace LuaData

namespace Chunk

def writeWord (n : Int32) : List UInt8 := littleEndian 4 n.toUInt32.toNat

/-- An int that readers require to be non-negative; a negative one is written as 0. -/
def writeField (n : Int32) : List UInt8 := writeWord (if n < 0 then 0 else n)

def writeList {α : Type} (xs : List α) (write : α → List UInt8) : List UInt8 :=
  littleEndian 4 (min xs.length maxCount) ++ (xs.take maxCount).flatMap write

/-- A string and a zero byte behind their length. The length 0 stands for an absent string. -/
def writeString : Option Str → List UInt8
  | none => littleEndian 8 0
  | some s => littleEndian 8 (s.length + 1) ++ s.bytes ++ [0]

/-- A constant. Values that no compiler produces have no written form of their own. -/
def writeConstant : Value → List UInt8
  | .boolean b => [1, b.toUInt8]
  | .number x => 3 :: littleEndian 8 x.bits.toNat
  | .string s => 4 :: writeString (some s)
  | _ => [0]

def writeLocal (l : LocalVar) : List UInt8 :=
  writeString l.name ++ writeField l.startPc ++ writeField l.endPc

def writeHead (f : Body) : List UInt8 :=
  writeField f.lineDefined ++ writeField f.lastLineDefined ++
    [f.paramCount, f.isVararg.toUInt8, f.maxStack] ++
    writeList f.code (fun i => littleEndian 4 i.word.toNat) ++
    writeList f.constants writeConstant

def writeUpvalues (f : Body) : List UInt8 :=
  writeList f.upvalues fun u => [u.isLocal.toUInt8, u.index]

def writeDebug (f : Body) (strip : Bool) : List UInt8 :=
  if strip then littleEndian 8 0 ++ littleEndian 4 0 ++ littleEndian 4 0 ++ littleEndian 4 0
  else
    writeString f.source ++ writeList f.lines writeWord ++ writeList f.locals writeLocal ++
      writeList f.upvalues fun u => writeString u.name

end Chunk

namespace Prototype

open Chunk

mutual

def write (strip : Bool) : Prototype → List UInt8
  | mk body children =>
    writeHead body ++ littleEndian 4 (min children.length maxCount) ++
      writeSome strip maxCount children ++ writeUpvalues body ++ writeDebug body strip

def writeSome (strip : Bool) : Nat → List Prototype → List UInt8
  | _, [] => []
  | 0, _ => []
  | limit + 1, p :: ps => write strip p ++ writeSome strip limit ps

end

def encode (p : Prototype) (strip : Bool) : List UInt8 := header ++ p.write strip

end Prototype

namespace Chunk

def fieldWarning (n : Int32) : List Message :=
  if n < 0 then [⟨.warn, s!"negative field {n.toInt} dumped as 0"⟩] else []

def countWarning (n : Nat) : List Message :=
  if maxCount < n then [⟨.warn, s!"{n} elements dumped as {maxCount}"⟩] else []

def constantWarning : Value → List Message
  | .nil | .boolean _ | .number _ | .string _ => []
  | k => [⟨.warn, s!"constant of type {k.typeName} dumped as nil"⟩]

def headWarnings (f : Body) : List Message :=
  fieldWarning f.lineDefined ++ fieldWarning f.lastLineDefined ++ countWarning f.code.length ++
    countWarning f.constants.length ++ (f.constants.take maxCount).flatMap constantWarning

def debugWarnings (f : Body) (strip : Bool) : List Message :=
  if strip then []
  else
    countWarning f.lines.length ++ countWarning f.locals.length ++
      ((f.locals.take maxCount).flatMap fun l => fieldWarning l.startPc ++ fieldWarning l.endPc) ++
      countWarning f.upvalues.length

end Chunk

namespace Prototype

open Chunk

mutual

def warnings (strip : Bool) : Prototype → List Message
  | mk body children =>
    headWarnings body ++ countWarning children.length ++ warningsOfSome strip maxCount children ++
      countWarning body.upvalues.length ++ debugWarnings body strip

def warningsOfSome (strip : Bool) : Nat → List Prototype → List Message
  | _, [] => []
  | 0, _ => []
  | limit + 1, p :: ps => warnings strip p ++ warningsOfSome strip limit ps

end

end Prototype

end LuaData
