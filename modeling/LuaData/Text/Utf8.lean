namespace LuaData.Text.Utf8

/-- A multi-byte sequence begun but not finished: the bits so far, the number of bytes still to
come, and the range that the next one must lie in. -/
structure Partial where
  bits : Nat
  missing : Nat
  low : Nat := 0x80
  high : Nat := 0xbf

/-- What a first byte starts: a character, a longer sequence, or nothing. The bounds on the second
byte keep out overlong forms, surrogates and code points above U+10FFFF. -/
def lead (b : Nat) : Option (Char ⊕ Partial) :=
  if b < 0x80 then some (.inl (Char.ofNat b))
  else if b < 0xc2 then none
  else if b < 0xe0 then some (.inr { bits := b - 0xc0, missing := 1 })
  else if b = 0xe0 then some (.inr { bits := 0, missing := 2, low := 0xa0 })
  else if b = 0xed then some (.inr { bits := 0xd, missing := 2, high := 0x9f })
  else if b < 0xf0 then some (.inr { bits := b - 0xe0, missing := 2 })
  else if b = 0xf0 then some (.inr { bits := 0, missing := 3, low := 0x90 })
  else if b < 0xf4 then some (.inr { bits := b - 0xf0, missing := 3 })
  else if b = 0xf4 then some (.inr { bits := 4, missing := 3, high := 0x8f })
  else none

def replacement : Char := Char.ofNat 0xfffd

def start (b : UInt8) : List Char × Option Partial :=
  match lead b.toNat with
  | none => ([replacement], none)
  | some (.inl c) => ([c], none)
  | some (.inr p) => ([], some p)

/-- Reads a byte inside a sequence. One that does not continue it ends it, is marked once, and is
itself read as a first byte. -/
def resume (p : Partial) (b : UInt8) : List Char × Option Partial :=
  if p.low ≤ b.toNat ∧ b.toNat ≤ p.high then
    let bits := p.bits * 64 + (b.toNat - 0x80)
    if p.missing ≤ 1 then ([Char.ofNat bits], none)
    else ([], some { bits := bits, missing := p.missing - 1 })
  else
    let (out, next) := start b
    (replacement :: out, next)

def decodeFrom : Option Partial → List UInt8 → List Char
  | none, [] => []
  | some _, [] => [replacement]
  | none, b :: bs => let (out, next) := start b; out ++ decodeFrom next bs
  | some p, b :: bs => let (out, next) := resume p b; out ++ decodeFrom next bs

def decode (bytes : List UInt8) : List Char := decodeFrom none bytes

end LuaData.Text.Utf8
