namespace LuaData

structure Links where
  prev : Option Nat := none
  next : Option Nat := none
  deriving DecidableEq, Inhabited

/-- The used slots from the longest known on: a list threaded through all slots, with links both
ways. -/
structure Order where
  links : Array Links
  first : Option Nat
  last : Option Nat
  deriving DecidableEq, Inhabited

namespace Order

def empty (size : Nat) : Order where
  links := Array.replicate size {}
  first := none
  last := none

def prev (o : Order) (i : Nat) : Option Nat := (o.links.getD i {}).prev

def next (o : Order) (i : Nat) : Option Nat := (o.links.getD i {}).next

def setPrev (o : Order) (i : Nat) (p : Option Nat) : Order :=
  { o with links := o.links.modify i fun l => { l with prev := p } }

def setNext (o : Order) (i : Nat) (n : Option Nat) : Order :=
  { o with links := o.links.modify i fun l => { l with next := n } }

def setFirst (o : Order) (i? : Option Nat) : Order := { o with first := i? }

def setLast (o : Order) (i? : Option Nat) : Order := { o with last := i? }

/-- Makes `n` follow `p?`, or come first if it was `i` that did. -/
def linkNext (o : Order) (i : Nat) (p? n : Option Nat) : Order :=
  match p? with
  | some p => o.setNext p n
  | none => if o.first = some i then o.setFirst n else o

def linkPrev (o : Order) (i : Nat) (n? p : Option Nat) : Order :=
  match n? with
  | some n => o.setPrev n p
  | none => if o.last = some i then o.setLast p else o

def unlink (o : Order) (i : Nat) : Order :=
  let p := o.prev i
  let n := o.next i
  (((o.setPrev i none).setNext i none).linkNext i p n).linkPrev i n p

def pushLast (o : Order) (i : Nat) : Order :=
  let l := o.last
  let o := (o.setPrev i l).setNext i none
  let o := match l with
    | some l => o.setNext l (some i)
    | none => o.setFirst (some i)
  o.setLast (some i)

def moveToEnd (o : Order) (i : Nat) : Order := (o.unlink i).pushLast i

/-- Puts slot `j`, which is not a member, in the place of slot `i`. -/
def transplant (o : Order) (i j : Nat) : Order :=
  let p := o.prev i
  let n := o.next i
  (((((o.setPrev i none).setNext i none).setPrev j p).setNext j n).linkNext i p (some j)).linkPrev
    i n (some j)

def toListFrom (o : Order) : (fuel : Nat) → (i? : Option Nat) → List Nat
  | 0, _ => []
  | _, none => []
  | fuel + 1, some i => i :: o.toListFrom fuel (o.next i)

def toList (o : Order) : List Nat := o.toListFrom o.links.size o.first

end Order

end LuaData
