import LuaData.Block
import LuaData.Interner
import LuaData.Journal
import LuaData.Value

namespace LuaData

inductive Owner where
  | table | prototype
  deriving DecidableEq, Inhabited

inductive Event where
  | alloc (block : Block) (count : Nat)
  | realloc (block : Block) (old new : Nat)
  | free (block : Block) (count : Nat)
  | barrier (owner : Owner) (value : Value)
  | string (length : Nat)
  deriving DecidableEq, Inhabited

structure Stats where
  allocations : Nat := 0
  reallocations : Nat := 0
  frees : Nat := 0
  barriers : Nat := 0
  stringsCreated : Nat := 0
  refused : Nat := 0
  deriving DecidableEq, Inhabited

/-- The keeper of memory: it accounts for bytes up to a limit, makes strings, and hears of every
collectable value that is stored. -/
structure Collector where
  limit : Int
  /-- Whether the next request is turned down though it may be within the limit, given what has been
  counted so far. Hosts are free to do so; the default one never does. -/
  declines : Stats → Bool := fun _ => false
  total : Int
  /-- Whether a total did not fit into a signed 64-bit word. That ends the run. -/
  overflowed : Bool := false
  interner : Interner
  stats : Stats
  events : Array Event
  journal : Array Message
  deriving Inhabited

namespace Collector

def unlimited : Int := Block.byteLimit

def new (pool : Nat) (limit : Int) : Collector where
  limit := limit
  total := 0
  interner := Interner.empty pool
  stats := {}
  events := #[]
  journal := #[]

def log (c : Collector) (level : Level) (text : String) : Collector :=
  { c with journal := c.journal.push ⟨level, text⟩ }

def record (c : Collector) (e : Event) : Collector := { c with events := c.events.push e }

def fits (n : Int) : Bool := decide (-unlimited - 1 ≤ n ∧ n ≤ unlimited)

/-- Adds to the total. The sum does not saturate. -/
def grow (c : Collector) (bytes : Int) : Collector :=
  { c with
    total := c.total + bytes
    overflowed := c.overflowed || !fits (c.total + bytes) }

/-- Whether `bytes` more are granted: the host does not decline, and they are within the limit. The
sum saturates as a signed 64-bit word. -/
def admits (c : Collector) (bytes : Int) : Bool :=
  !c.declines c.stats && decide (bytes ≤ 0 ∨ min (c.total + bytes) Block.byteLimit ≤ c.limit)

def refuse (c : Collector) (bytes : Int) : Collector :=
  { c with stats := { c.stats with refused := c.stats.refused + 1 } }.log .trace
    s!"allocation of {bytes} bytes refused ({c.total} in use, limit {c.limit})"

def charge (c : Collector) (bytes : Int) : Bool × Collector :=
  if c.admits bytes then (true, c.grow bytes) else (false, c.refuse bytes)

def alloc (c : Collector) (b : Block) (count : Nat) : Bool × Collector :=
  match c.charge (b.bytes count) with
  | (true, c) =>
    (true, ({ c with stats := { c.stats with allocations := c.stats.allocations + 1 } }.log .trace
      s!"alloc {b.label} x{count}").record (.alloc b count))
  | (false, c) => (false, c)

def realloc (c : Collector) (b : Block) (old new : Nat) : Bool × Collector :=
  match c.charge (b.bytes new - b.bytes old) with
  | (true, c) =>
    (true,
      ({ c with stats := { c.stats with reallocations := c.stats.reallocations + 1 } }.log .trace
        s!"realloc {b.label} {old} -> {new}").record (.realloc b old new))
  | (false, c) => (false, c)

def free (c : Collector) (b : Block) (count : Nat) : Collector :=
  let c := c.grow (-b.bytes count)
  ({ c with stats := { c.stats with frees := c.stats.frees + 1 } }.log .trace
    s!"free {b.label} x{count}").record (.free b count)

def barrier (c : Collector) (owner : Owner) (v : Value) : Collector :=
  { c with stats := { c.stats with barriers := c.stats.barriers + 1 } }.record (.barrier owner v)

def noteStored (c : Collector) (owner : Owner) (v : Value) : Collector :=
  if v.isCollectable then c.barrier owner v else c

def noteCreated (c : Collector) : Collector :=
  { c with stats := { c.stats with stringsCreated := c.stats.stringsCreated + 1 } }

/-- The string of a content, absent if its bytes are refused. A short one that is already interned
costs nothing; a long one is always new. -/
def createString (c : Collector) (bytes : List UInt8) : Option Str × Collector :=
  match c.interner.find? bytes with
  | some s => (some s, c.record (.string bytes.length))
  | none =>
    match c.charge (Block.stringBytes.bytes bytes.length) with
    | (false, c) => (none, c)
    | (true, c) =>
      let (s, interner) :=
        if bytes.length ≤ Str.shortLimit then c.interner.add bytes else c.interner.fresh bytes
      (some s, { c with interner := interner }.noteCreated.record (.string bytes.length))

def sweep (c : Collector) (held : Str → Bool) : Collector :=
  { c.grow (-c.interner.unheldBytes held) with interner := c.interner.sweep held }

def growths (c : Collector) (b : Block) : Nat :=
  c.events.countP fun
    | .alloc b' count => b' == b && decide (0 < count)
    | .realloc b' old new => b' == b && decide (old < new)
    | _ => false

def barriers (c : Collector) : Nat :=
  c.events.countP fun
    | .barrier _ _ => true
    | _ => false

end Collector

end LuaData
