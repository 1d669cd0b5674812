import LuaData.Value

namespace LuaData

/-- A hash of strings. Equal strings of two pools need not agree, as each pool has its own seed. -/
structure StringHash where
  apply : Str → UInt64

/-- A hash of strings that were made under one seed. -/
structure SeededHash extends StringHash where
  congr : ∀ s t : Str, s.equal t = true → apply s = apply t

/-- What a string keeps for its hash: the hash once it is known, and until then the seed. -/
structure HashCell where
  word : UInt64
  known : Bool
  deriving DecidableEq

namespace HashCell

variable (content : UInt64 → List UInt8 → UInt64) (seed : UInt64) (s : Str)

def make : HashCell := if s.isShort then ⟨content seed s.bytes, true⟩ else ⟨seed, false⟩

def ask (cell : HashCell) : UInt64 × HashCell :=
  if cell.known then (cell.word, cell)
  else (content cell.word s.bytes, ⟨content cell.word s.bytes, true⟩)

def after : Nat → HashCell
  | 0 => make content seed s
  | n + 1 => (ask content s (after n)).2

/-- A cell holds the hash of the content, or the seed under which it is still to be computed. -/
theorem after_cases (n : Nat) :
    after content seed s n = ⟨content seed s.bytes, true⟩ ∨
      after content seed s n = ⟨seed, false⟩ := by
  induction n with
  | zero =>
    rw [after, make]
    split
    · exact .inl rfl
    · exact .inr rfl
  | succ n ih =>
    rw [after]
    rcases ih with h | h <;> rw [h] <;> exact .inl rfl

theorem ask_after (n : Nat) :
    (ask content s (after content seed s n)).1 = content seed s.bytes := by
  rcases after_cases content seed s n with h | h <;> rw [h] <;> rfl

end HashCell

/-- The hash of strings that were made under one seed. It is taken from the cells, each of which
may have been asked before. -/
def StringHash.seeded (content : UInt64 → List UInt8 → UInt64) (seed : UInt64)
    (asked : Str → Nat) : StringHash where
  apply s := (HashCell.ask content s (HashCell.after content seed s (asked s))).1

theorem StringHash.apply_seeded (content : UInt64 → List UInt8 → UInt64) (seed : UInt64)
    (asked : Str → Nat) (s : Str) : (seeded content seed asked).apply s = content seed s.bytes :=
  HashCell.ask_after content seed s (asked s)

namespace SeededHash

instance : Coe SeededHash StringHash := ⟨toStringHash⟩

def ofSeed (content : UInt64 → List UInt8 → UInt64) (seed : UInt64) (asked : Str → Nat) :
    SeededHash where
  toStringHash := .seeded content seed asked
  congr s t h := by
    rw [StringHash.apply_seeded, StringHash.apply_seeded]
    rcases Str.equal_iff.1 h with rfl | ⟨_, hb⟩
    · rfl
    · rw [hb]

def ofContent : SeededHash := ofSeed (fun _ bytes => Str.contentHash bytes) 0 fun _ => 0

end SeededHash

abbrev StringHash.ofContent : StringHash := SeededHash.ofContent.toStringHash

namespace ObjectId

def pattern (o : ObjectId) : Nat := (o.kind.rank <<< 29) ^^^ o.index.toNat

end ObjectId

namespace Value

def maskedTo (hash size : Nat) : Nat := hash &&& (size - 1)

/-- A hash reduced by an odd divisor, for those whose bits have many factors of two. -/
def reducedTo (hash size : Nat) : Nat := hash % ((size - 1) ||| 1)

/-- The slot where a key belongs among `size` slots, `size` being a power of two. Of the bits of a
reference, the low 32 are its hash. -/
def mainPosition (h : StringHash) (size : Nat) : Value → Nat
  | nil => 0
  | boolean b => maskedTo b.toNat size
  | string s => maskedTo (h.apply s).toNat size
  | number x => reducedTo x.hash size
  | lightUserdata p => reducedTo (p.toNat % 0x100000000) size
  | native entry => reducedTo (entry.toNat % 0x100000000) size
  | object o => reducedTo o.pattern size

end Value

end LuaData
