import LuaData.Chunk.Writer
import LuaData.Session.Basic

namespace LuaData

inductive Step where
  | new (arraySize hashSize : Nat)
  | get (k : Operand)
  | getInt (n : Int)
  | getStr (k : Operand)
  | set (k v : Operand)
  | setInt (n : Int) (v : Operand)
  | cell (k : Operand)
  | cellSet (k v : Operand)
  | next (k : Operand)
  | entries
  | walk (n : Nat) (v : Operand)
  | resize (arraySize hashSize : Nat)
  | resizeArray (arraySize : Nat)
  | setList (first : Int) (values : List Operand)
  | length
  | count (fuzzy : Bool)
  | metatable
  | setMetatable (o : Option ObjectId)
  | release
  | alloc (b : Block) (n : Nat)
  | realloc (b : Block) (old new : Nat)
  | freeBlock (b : Block) (n : Nat)
  | barrier (owner : Owner) (v : Operand)
  | stats
  | interned
  | find (bytes : List UInt8)
  | sweep
  | growths (b : Block)
  | barriers
  | clear
  | makeString (bytes : List UInt8)
  | makeForeign (bytes : List UInt8)
  | dropString (i : Nat)
  | describe (i : Nat)
  | hashString (i : Nat)
  | compare (i j : Nat)
  | load (bytes : List UInt8) (name : String)
  | write (i : Nat) (strip : Bool)
  | lineAt (i pc : Nat)
  | releaseClosure (i : Nat)
  | dropClosure (i : Nat)
  | constantEquals (i n : Nat) (v : Operand)

structure Description where
  string : Str
  isHashed : Bool

inductive Answer where
  | unit
  | value (v : Option Value)
  | entry (e : Option (Value × Value))
  | entries (es : List (Value × Value)) (failure : Option TableError)
  | number (n : Int)
  | line (n : Option Int)
  | flag (b : Option Bool)
  | flags (bs : List Bool)
  | object (o : Option ObjectId)
  | stats (s : Stats)
  | interned (size : Nat) (isEmpty : Bool)
  | description (d : Description)
  | closure (i : Nat) (f : Closure)
  | bytes (bs : List UInt8)
  | failed (f : Failure)

namespace Session

def walkAfter (n : Nat) (v : Value) : (fuel seen : Nat) → Value →
    Action (List (Value × Value) × Option TableError)
  | 0, _, _ => return ([], none)
  | fuel + 1, seen, k => do
    match (← get).table.next hash k with
    | .error e => return ([], some e)
    | .ok none => return ([], none)
    | .ok (some e) =>
      if 0 < n ∧ seen % n = 0 then update fun t c => t.set hash c e.1 v
      let (es, failure) ← walkAfter n v fuel (seen + 1) e.1
      return (e :: es, failure)

def lookingFor {α : Type} (k : Value) (x : Action α) : Action α := tryFinally x (noteLookup k)

def apply : Step → Action Answer
  | .new a n => do
    let out := Table.withCapacity hash (← get).collector a n
    setCollector out.collector
    match out.result with
    | .ok _ => modify fun s => { s with table := out.table }
    | .error e => throw (.table e)
    return .unit
  | .get k => do
    let k ← resolve k
    return .value (← lookingFor k (lookup fun t => t.get hash k))
  | .getInt n => return .value (← lookup fun t => t.getInt hash n)
  | .getStr k => do
    let k ← resolveString k
    return .value (← lookingFor (.string k) (lookup fun t => t.getStr hash k))
  | .set k v => do
    let k ← resolve k
    let v ← resolve v
    lookingFor k (update fun t c => t.set hash c k v)
    return .unit
  | .setInt n v => do
    let v ← resolve v
    update fun t c => t.setInt hash c n v
    return .unit
  | .cell k => do
    let k ← resolve k
    let cell ← lookingFor k (update fun t c => t.cellFor hash c k)
    return .value ((← get).table.read cell)
  | .cellSet k v => do
    let k ← resolve k
    let v ← resolve v
    let cell ← lookingFor k (update fun t c => t.cellFor hash c k)
    let old := (← get).table.read cell
    modify fun s => { s with table := s.table.write cell v }
    return .value old
  | .next k => do
    let k ← resolve k
    let found ← lookingFor k (lookup fun t => (t.next hash k, t))
    match found with
    | .ok e => return .entry e
    | .error e => throw (.table e)
  | .entries => return .entries ((← get).table.entries hash) none
  | .walk n v => do
    let v ← resolve v
    let t := (← get).table
    let (es, failure) ← walkAfter n v (t.array.size + t.slots.size + 1) 0 .nil
    return .entries es failure
  | .resize a n => do
    update fun t c => t.resize hash c a n
    return .unit
  | .resizeArray a => do
    update fun t c => t.resizeArray hash c a
    return .unit
  | .setList first values => do
    let values ← values.mapM resolve
    update fun t c => t.setList hash c first values
    return .unit
  | .length => return .number (← lookup fun t => t.length hash)
  | .count fuzzy => return .number ((← get).table.count fuzzy)
  | .metatable => return .object (← get).table.metatable
  | .setMetatable o => do
    modify fun s =>
      let (t, c) := s.table.setMetatable s.collector o
      { s with table := t, collector := c }
    return .unit
  | .release => do
    modify fun s => { s with table := Table.empty, collector := s.table.release s.collector }
    return .unit
  | .alloc b n => do
    demand fun c => c.alloc b n
    return .unit
  | .realloc b old new => do
    demand fun c => c.realloc b old new
    return .unit
  | .freeBlock b n => do
    setCollector ((← get).collector.free b n)
    return .unit
  | .barrier owner v => do
    let v ← resolve v
    setCollector ((← get).collector.barrier owner v)
    return .unit
  | .stats => return .stats (← get).collector.stats
  | .interned => do
    let i := (← get).collector.interner
    return .interned i.size i.isEmpty
  | .find bytes => return .flag ((← get).collector.interner.find? bytes).isSome
  | .sweep => do
    let s ← get
    let held := s.roots
    setCollector (s.collector.sweep fun t => held.contains t)
    return .unit
  | .growths b => return .number ((← get).collector.growths b)
  | .barriers => return .number (← get).collector.barriers
  | .clear => do
    setCollector { (← get).collector with events := #[] }
    return .unit
  | .makeString bytes => return .number (← holdString (← makeString bytes))
  | .makeForeign bytes => return .number (← holdString (← makeForeign bytes))
  | .dropString i => do
    modify fun s => { s with strings := s.strings.setIfInBounds i none }
    return .unit
  | .describe i => do
    let t ← heldString i
    return .description { string := t, isHashed := (← get).isHashed t }
  | .hashString i => do
    let t ← heldString i
    let before := (← get).isHashed t
    noteHashed t
    return .flags [before, (← get).isHashed t, hash.apply t == hash.apply t]
  | .compare i j => do
    let a ← heldString i
    let b ← heldString j
    return .flags [a.equal b, decide (a = b)]
  | .load bytes name => do
    let (loaded, c) := Chunk.load (← get).collector name bytes
    setCollector c
    match loaded with
    | .ok f =>
      let i := (← get).closures.size
      modify fun s => { s with closures := s.closures.push (some f) }
      return .closure i f
    | .error .outOfMemory => throw (.table .outOfMemory)
    | .error (.rejected r) => throw (.chunk r)
  | .write i strip => do
    let f ← heldClosure i
    setCollector ((f.prototype.warnings strip).foldl (fun c m => c.log m.level m.text)
      (← get).collector)
    return .bytes (f.prototype.encode strip)
  | .lineAt i pc => return .line (((← heldClosure i).prototype.body.lineAt pc).map Int32.toInt)
  | .releaseClosure i => do
    let f ← heldClosure i
    setCollector (f.prototype.release (← get).collector)
    return .unit
  | .dropClosure i => do
    modify fun s => { s with closures := s.closures.setIfInBounds i none }
    return .unit
  | .constantEquals i n v => do
    let f ← heldClosure i
    let v ← resolve v
    return .flag ((f.prototype.body.constants[n]?).map fun k => k.equal v)

structure Report where
  answer : Answer
  arraySize : Nat
  hashSize : Nat
  count : Nat
  total : Int
  events : List Event
  journal : List Message

def step (s : Session) (x : Step) : Report × Session :=
  let (answer, t) := match (apply x).run s with
    | .ok a t => (a, t)
    | .error f t => (.failed f, t)
  ({ answer := answer
     arraySize := t.table.array.size
     hashSize := t.table.slots.size
     count := t.table.count false
     total := t.collector.total
     events := (t.collector.events.extract s.collector.events.size t.collector.events.size).toList
     journal := (t.collector.journal.extract s.collector.journal.size
       t.collector.journal.size).toList }, t)

/-- Takes steps one after the other. Nothing is reported if a total of the collectors overflows on
the way. -/
def run (s : Session) : List Step → Option (List Report)
  | [] => some []
  | x :: xs =>
    let (report, s) := s.step x
    if s.collector.overflowed || s.foreign.overflowed then none
    else (s.run xs).map fun reports => report :: reports

end Session

end LuaData
