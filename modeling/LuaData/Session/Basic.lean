import LuaData.Chunk.Load
import LuaData.Table.Bulk
import LuaData.Table.Length
import LuaData.Table.Traversal

namespace LuaData

inductive Failure where
  | table (e : TableError)
  | chunk (r : Chunk.Rejection)
  | badHandle
  deriving DecidableEq, Inhabited

def Failure.message : Failure → String
  | table e => e.message
  | chunk r => r.message
  | badHandle => "no such handle"

inductive Operand where
  | constant (v : Value)
  | fresh (bytes : List UInt8)
  | foreign (bytes : List UInt8)
  | held (i : Nat)
  deriving DecidableEq, Inhabited

/-- One table in the care of one collector, with the strings and closures that are held, and a
foreign collector whose strings are never identical to those of the first. -/
structure Session where
  collector : Collector
  foreign : Collector
  table : Table
  strings : Array (Option Str)
  /-- The long strings whose hash has been taken. -/
  hashed : List Str
  closures : Array (Option Closure)
  deriving Inhabited

/-- A step of a session: an answer or a failure, and the state left behind in both cases. -/
abbrev Action := EStateM Failure Session

namespace Session

def new (limit : Int) : Session where
  collector := Collector.new 1 limit
  foreign := Collector.new 2 Collector.unlimited
  table := Table.empty
  strings := #[]
  hashed := []
  closures := #[]

def hash : StringHash := .ofContent

def setCollector (c : Collector) : Action Unit := modify fun s => { s with collector := c }

def makeString (bytes : List UInt8) : Action Str := do
  let (made, c) := (← get).collector.createString bytes
  setCollector c
  match made with
  | some t => return t
  | none => throw (.table .outOfMemory)

def makeForeign (bytes : List UInt8) : Action Str := do
  let (made, c) := (← get).foreign.createString bytes
  modify fun s => { s with foreign := c }
  match made with
  | some t => return t
  | none => throw (.table .outOfMemory)

def heldString (i : Nat) : Action Str := do
  match (← get).strings.getD i none with
  | some t => return t
  | none => throw .badHandle

def heldClosure (i : Nat) : Action Closure := do
  match (← get).closures.getD i none with
  | some f => return f
  | none => throw .badHandle

def holdString (t : Str) : Action Nat := do
  let i := (← get).strings.size
  modify fun s => { s with strings := s.strings.push (some t) }
  return i

def resolve : Operand → Action Value
  | .constant v => return v
  | .fresh bytes => return .string (← makeString bytes)
  | .foreign bytes => return .string (← makeForeign bytes)
  | .held i => return .string (← heldString i)

def resolveString (o : Operand) : Action Str := do
  match ← resolve o with
  | .string t => return t
  | _ => throw .badHandle

def isHashed (s : Session) (t : Str) : Bool := t.isShort || s.hashed.contains t

def noteHashed (t : Str) : Action Unit :=
  modify fun s => if s.isHashed t then s else { s with hashed := t :: s.hashed }

/-- The hash of a key is taken by whatever looks for it in a hash part. -/
def noteLookup (k : Value) : Action Unit := do
  match k with
  | .string t => if (← get).table.slots.isEmpty then return () else noteHashed t
  | _ => return ()

def lookup {α : Type} (f : Table → α × Table) : Action α := do
  let (x, t) := f (← get).table
  modify fun s => { s with table := t }
  return x

def update {α : Type} (f : Table → Collector → Outcome α) : Action α := do
  let s ← get
  let out := f s.table s.collector
  set { s with table := out.table, collector := out.collector }
  match out.result with
  | .ok x => return x
  | .error e => throw (.table e)

def demand (f : Collector → Bool × Collector) : Action Unit := do
  let (granted, c) := f (← get).collector
  setCollector c
  if granted then return () else throw (.table .outOfMemory)

/-- The strings that keep an interned string alive: those in the table, cleared keys included, in
the closures, and in the registry. -/
def roots (s : Session) : List Str :=
  let ofValue : Value → Option Str := fun v => match v with | .string t => some t | _ => none
  s.table.array.toList.filterMap ofValue ++
    s.table.slots.toList.flatMap (fun x => [x.key, x.value].filterMap ofValue) ++
    s.closures.toList.flatMap (fun f =>
      f.elim [] fun f => f.prototype.strings ++ f.cells.filterMap ofValue) ++
    s.strings.toList.filterMap id

end Session

end LuaData
