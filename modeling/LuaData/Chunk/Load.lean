import LuaData.Chunk.Reader

namespace LuaData

namespace Chunk

/-- The serving of requests: the collector, the blocks it has charged, the latest first, and the
strings it has made. -/
structure Serving where
  collector : Collector
  charged : List (Block × Nat)
  strings : Array Str

namespace Serving

/-- Serves one request. The flag tells whether it was granted. A long string is charged to the
prototype that holds it. -/
def serve (s : Serving) : Request → Bool × Serving
  | .block b n =>
    match s.collector.alloc b n with
    | (true, c) => (true, { s with collector := c, charged := (b, n) :: s.charged })
    | (false, c) => (false, { s with collector := c })
  | .text bytes =>
    match s.collector.createString bytes with
    | (some t, c) =>
      (true,
        { collector := c.barrier .prototype (.string t)
          charged := if t.isShort then s.charged else (.stringBytes, t.length) :: s.charged
          strings := s.strings.push t })
    | (none, c) => (false, { s with collector := c })
  | .note m => (true, { s with collector := s.collector.log m.level m.text })

def serveAll (s : Serving) : List Request → Bool × Serving
  | [] => (true, s)
  | r :: rs =>
    match s.serve r with
    | (true, s) => s.serveAll rs
    | refused => refused

def release (s : Serving) : Collector :=
  s.charged.foldl (fun c b => c.free b.1 b.2) s.collector

end Serving

inductive LoadError where
  | outOfMemory
  | rejected (r : Rejection)
  deriving DecidableEq, Inhabited

def LoadError.message : LoadError → String
  | outOfMemory => "not enough memory"
  | rejected r => r.message

/-- Loads a chunk of a given display name. The collector serves the requests of reading in their
order, so that a refusal comes before any fault found later. A failed load gives all charges
back. -/
def loadNamed (c : Collector) (name : String) (bytes : List UInt8) :
    Except LoadError Closure × Collector :=
  let outcome := scan name bytes
  let requests := match outcome with
    | .ok _ s | .error _ s => s.requests.toList
  match ({ collector := c, charged := [], strings := #[] } : Serving).serveAll requests with
  | (false, s) => (.error .outOfMemory, s.release)
  | (true, s) =>
    match outcome with
    | .error cause _ => (.error (.rejected ⟨name, cause⟩), s.release)
    | .ok p _ =>
      (.ok (.ofPrototype (p.mapStr fun t => s.strings.getD t.serial t)),
        s.collector.log .debug s!"{name}: loaded chunk with {p.count} prototype(s)")

def load (c : Collector) (name : String) (bytes : List UInt8) :
    Except LoadError Closure × Collector :=
  loadNamed c (displayName name) bytes

end Chunk

end LuaData
