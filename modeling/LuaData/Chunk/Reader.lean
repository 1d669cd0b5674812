import LuaData.Chunk.Layout

namespace LuaData.Chunk

inductive Request where
  | block (b : Block) (count : Nat)
  | text (bytes : List UInt8)
  | note (m : Message)
  deriving DecidableEq, Inhabited

structure Scan where
  rest : List UInt8
  requests : Array Request
  texts : Nat
  deriving Inhabited

/-- A reader of a part of a chunk. The requests made before a failure are kept. -/
abbrev Reader := EStateM Cause Scan

def takeExactly : Nat → List UInt8 → Option (List UInt8 × List UInt8)
  | 0, bytes => some ([], bytes)
  | _ + 1, [] => none
  | n + 1, b :: bytes => (takeExactly n bytes).map fun (taken, rest) => (b :: taken, rest)

namespace Reader

def request (r : Request) : Reader Unit :=
  modify fun s => { s with requests := s.requests.push r }

def bytes (n : Nat) : Reader (List UInt8) := fun s =>
  match takeExactly n s.rest with
  | some (taken, rest) => .ok taken { s with rest := rest }
  | none => .error .truncated s

def byte : Reader UInt8 := return (← bytes 1).headD 0

def flag : Reader Bool := return (← byte) != 0

def word (width : Nat) : Reader Nat := return ofLittleEndian (← bytes width)

def int : Reader Int32 := return (UInt32.ofNat (← word 4)).toInt32

def field : Reader Int32 := do
  let n ← int
  if n < 0 then throw .corrupted else return n

def count : Reader Nat := return (← field).toInt.toNat

def times {α : Type} (r : Reader α) : Nat → Reader (List α)
  | 0 => return []
  | n + 1 => do
    let x ← r
    let xs ← times r n
    return x :: xs

/-- The handle that stands for the string of number `n` until strings are made. -/
def provisional (n : Nat) (bytes : List UInt8) : Str := ⟨0, n, bytes⟩

/-- A string, absent if its length is 0. The last of its bytes is a terminator. -/
def string : Reader (Option Str) := do
  let size ← word 8
  if size = 0 then return none
  let content := (← bytes size).dropLast
  request (.text content)
  let n := (← get).texts
  modify fun s => { s with texts := s.texts + 1 }
  return some (provisional n content)

/-- A counted block of elements. The block is requested before its elements are read. -/
def list {α : Type} (b : Block) (r : Reader α) : Reader (List α) := do
  let n ← count
  request (.block b n)
  times r n

def constant : Reader Value := do
  match (← byte).toNat with
  | 0 => return .nil
  | 1 => return .boolean (← flag)
  | 3 => return .number ⟨UInt64.ofNat (← word 8)⟩
  | 4 =>
    match ← string with
    | some s => return .string s
    | none => throw .corrupted
  | _ => throw .corrupted

def instruction : Reader Instruction := return ⟨UInt32.ofNat (← word 4)⟩

def upvalue : Reader Upvalue := do
  let isLocal ← flag
  let index ← byte
  return { isLocal, index, name := none }

def localVar : Reader LocalVar := do
  let name ← string
  let startPc ← field
  let endPc ← field
  return { name, startPc, endPc }

def nameUpvalues : List Upvalue → List (Option Str) → List Upvalue
  | u :: us, n :: ns => { u with name := n } :: nameUpvalues us ns
  | us, _ => us

def upvalueNames (upvalues : List Upvalue) : Reader (List Upvalue) := do
  let n ← count
  if upvalues.length < n then throw .corrupted
  return nameUpvalues upvalues (← times string n)

/-- The note on a function that was read, and its first fault with a note of it. -/
def accept (name : String) (f : Body) (childCount : Nat) : Reader Unit := do
  request (.note ⟨.trace, s!"{name}: loaded function at line {f.lineDefined.toInt} " ++
    s!"({f.code.length} instructions, {f.constants.length} constants)"⟩)
  match f.fault? childCount with
  | none => return ()
  | some fault =>
    request (.note ⟨.debug, name ++ ": rejected bytecode: " ++ fault.display⟩)
    throw (.invalidBytecode fault)

/-- A function record with at most `levels` levels of functions, its own included. Every function is
verified as soon as it is complete. -/
def function (name : String) : (levels : Nat) → Reader Prototype
  | 0 => throw .tooDeep
  | levels + 1 => do
    request (.block .prototype 1)
    let lineDefined ← field
    let lastLineDefined ← field
    let paramCount ← byte
    let isVararg ← flag
    let maxStack ← byte
    let code ← list .code instruction
    let constants ← list .constants constant
    let children ← list .children (function name levels)
    let unnamed ← list .upvalues upvalue
    let source ← string
    let lines ← list .lineInfo int
    let locals ← list .locals localVar
    let upvalues ← upvalueNames unnamed
    let body : Body := { lineDefined, lastLineDefined, paramCount, isVararg, maxStack, code,
                         constants, upvalues, source, lines, locals }
    accept name body children.length
    return .mk body children

/-- A whole chunk. What follows the record is not looked at. -/
def chunk (name : String) : Reader Prototype := do
  let h ← bytes header.length
  match headerFault? h with
  | some cause => throw cause
  | none => function name (maxDepth + 1)

end Reader

def scan (name : String) (bytes : List UInt8) : EStateM.Result Cause Scan Prototype :=
  Reader.chunk name { rest := bytes, requests := #[], texts := 0 }

end LuaData.Chunk
