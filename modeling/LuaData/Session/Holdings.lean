import LuaData.Interner

namespace LuaData

structure Holdings where
  interner : Interner
  held : Array (Option Str)
  deriving Inhabited

namespace Holdings

inductive Step where
  | intern (bytes : List UInt8)
  | find (bytes : List UInt8)
  | drop (i : Nat)
  | sweep
  deriving DecidableEq, Inhabited

inductive Answer where
  | interned (created : Bool) (first : Nat)
  | found (first : Option Nat)
  | missing
  | dropped
  | released (bytes : Nat)
  deriving DecidableEq, Inhabited

def new : Holdings := ⟨Interner.empty 1, #[]⟩

def placeOf (h : Holdings) (s : Str) : Option Nat := h.held.toList.idxOf? (some s)

def isHeld (h : Holdings) (s : Str) : Bool := (h.placeOf s).isSome

def step (h : Holdings) : Step → Answer × Holdings
  | .intern bytes =>
    let (s, created, interner) := h.interner.intern bytes
    let h : Holdings := { interner := interner, held := h.held.push (some s) }
    (.interned created ((h.placeOf s).getD 0), h)
  | .find bytes =>
    match h.interner.find? bytes with
    | some s => (.found (h.placeOf s), h)
    | none => (.missing, h)
  | .drop i => (.dropped, { h with held := h.held.setIfInBounds i none })
  | .sweep =>
    (.released (h.interner.unheldBytes h.isHeld),
      { h with interner := h.interner.sweep h.isHeld })

def run (h : Holdings) : List Step → List (Answer × Nat × Bool)
  | [] => []
  | x :: xs =>
    let (answer, h) := h.step x
    (answer, h.interner.size, h.interner.isEmpty) :: h.run xs

end Holdings

end LuaData
