import LuaData.Collector
import LuaData.Instruction

namespace LuaData

/-- Where a closure finds an upvalue: in a register or among the upvalues of the enclosing
function. -/
structure Upvalue where
  isLocal : Bool
  index : UInt8
  name : Option Str
  deriving DecidableEq, Inhabited

structure LocalVar where
  name : Option Str
  startPc : Int32
  endPc : Int32
  deriving DecidableEq, Inhabited

structure Body where
  lineDefined : Int32
  lastLineDefined : Int32
  paramCount : UInt8
  isVararg : Bool
  maxStack : UInt8
  code : List Instruction
  constants : List Value
  upvalues : List Upvalue
  source : Option Str
  lines : List Int32
  locals : List LocalVar
  deriving DecidableEq, Inhabited

inductive Prototype where
  | mk (body : Body) (children : List Prototype)

namespace Body

def strings (f : Body) : List Str :=
  f.constants.filterMap (fun k => match k with | .string s => some s | _ => none) ++
    f.source.toList ++ f.locals.filterMap LocalVar.name ++ f.upvalues.filterMap Upvalue.name

def lineAt (f : Body) (pc : Nat) : Option Int32 := f.lines[pc]?

def mapStr (f : Str → Str) (body : Body) : Body :=
  { body with
    constants := body.constants.map fun k => match k with | .string s => .string (f s) | k => k
    upvalues := body.upvalues.map fun u => { u with name := u.name.map f }
    source := body.source.map f
    locals := body.locals.map fun l => { l with name := l.name.map f } }

/-- The blocks of a function with `childCount` nested ones, in the order of their release. -/
def blocks (f : Body) (childCount : Nat) : List (Block × Nat) :=
  (f.strings.filter fun s => !s.isShort).map (fun s => (.stringBytes, s.length)) ++
    [(.locals, f.locals.length), (.lineInfo, f.lines.length), (.upvalues, f.upvalues.length),
      (.children, childCount), (.constants, f.constants.length), (.code, f.code.length),
      (.prototype, 1)]

end Body

namespace Prototype

def body : Prototype → Body
  | mk body _ => body

def children : Prototype → List Prototype
  | mk _ children => children

instance : Inhabited Prototype := ⟨mk default []⟩

mutual

def count : Prototype → Nat
  | mk _ children => 1 + countAll children

def countAll : List Prototype → Nat
  | [] => 0
  | p :: ps => count p + countAll ps

end

mutual

def flatten : Prototype → List (Body × Nat)
  | mk body children => (body, children.length) :: flattenAll children

def flattenAll : List Prototype → List (Body × Nat)
  | [] => []
  | p :: ps => flatten p ++ flattenAll ps

end

mutual

def mapStr (f : Str → Str) : Prototype → Prototype
  | mk body children => mk (body.mapStr f) (mapStrAll f children)

def mapStrAll (f : Str → Str) : List Prototype → List Prototype
  | [] => []
  | p :: ps => mapStr f p :: mapStrAll f ps

end

mutual

def blocks : Prototype → List (Block × Nat)
  | mk body children => blocksAll children ++ body.blocks children.length

def blocksAll : List Prototype → List (Block × Nat)
  | [] => []
  | p :: ps => blocks p ++ blocksAll ps

end

def strings (p : Prototype) : List Str := p.flatten.flatMap fun f => f.1.strings

def release (p : Prototype) (c : Collector) : Collector :=
  p.blocks.foldl (fun c b => c.free b.1 b.2) c

end Prototype

structure Closure where
  prototype : Prototype
  cells : List Value
  deriving Inhabited

def Closure.ofPrototype (p : Prototype) : Closure where
  prototype := p
  cells := List.replicate p.body.upvalues.length .nil

end LuaData
