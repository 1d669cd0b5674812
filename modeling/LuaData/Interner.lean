import LuaData.Str

namespace LuaData

/-- Strings in buckets, each bucket under the hash of the contents in it. -/
abbrev Buckets := List (UInt64 × List Str)

namespace Buckets

def under (bs : Buckets) (h : UInt64) : List Str := (bs.lookup h).getD []

def push (h : UInt64) (s : Str) : Buckets → Buckets
  | [] => [(h, [s])]
  | b :: bs => if b.1 = h then (b.1, b.2 ++ [s]) :: bs else b :: push h s bs

def retain (held : Str → Bool) (bs : Buckets) : Buckets :=
  (bs.map fun b => (b.1, b.2.filter held)).filter fun b => !b.2.isEmpty

def contents (bs : Buckets) : List Str := bs.flatMap Prod.snd

theorem contents_cons (b : UInt64 × List Str) (bs : Buckets) :
    contents (b :: bs) = b.2 ++ contents bs := List.flatMap_cons

/-- The bucket that takes a string up gets it at its end. -/
theorem exists_contents_push (h : UInt64) (s : Str) (bs : Buckets) :
    ∃ before after, contents bs = before ++ after ∧
      contents (push h s bs) = before ++ s :: after := by
  induction bs with
  | nil => exact ⟨[], [], rfl, rfl⟩
  | cons b bs ih =>
    rw [push]
    split
    · exact ⟨b.2, contents bs, rfl, by simp [contents_cons]⟩
    · obtain ⟨before, after, hbs, hpush⟩ := ih
      exact ⟨b.2 ++ before, after, by simp [contents_cons, hbs], by simp [contents_cons, hpush]⟩

theorem contents_retain (held : Str → Bool) (bs : Buckets) :
    contents (retain held bs) = bs.contents.filter held := by
  induction bs with
  | nil => rfl
  | cons b bs ih =>
    rw [contents_cons, List.filter_append, ← ih, retain, List.map_cons, List.filter_cons]
    split
    · rfl
    · rename_i hempty
      have hnone : b.2.filter held = [] := by simpa using hempty
      rw [hnone]
      rfl

end Buckets

structure Interner where
  pool : Nat
  next : Nat
  hash : List UInt8 → UInt64
  buckets : Buckets
  serial_lt : ∀ s ∈ buckets.contents, s.serial < next

namespace Interner

/-- An interner with a given hash of contents that has made nothing yet. Strings of different pools
are never identical. -/
def hashing (hash : List UInt8 → UInt64) (pool : Nat) : Interner where
  pool := pool
  next := 0
  hash := hash
  buckets := []
  serial_lt _ h := absurd h List.not_mem_nil

def empty (pool : Nat) : Interner := hashing Str.contentHash pool

instance : Inhabited Interner := ⟨empty 0⟩

def size (i : Interner) : Nat := i.buckets.foldl (fun n b => n + b.2.length) 0

def isEmpty (i : Interner) : Bool := i.buckets.isEmpty

def find? (i : Interner) (bytes : List UInt8) : Option Str :=
  if bytes.length ≤ Str.shortLimit then
    (i.buckets.under (i.hash bytes)).find? fun s => s.bytes == bytes
  else none

def fresh (i : Interner) (bytes : List UInt8) : Str × Interner :=
  (⟨i.pool, i.next, bytes⟩,
    { i with next := i.next + 1, serial_lt := fun s h => Nat.lt_succ_of_lt (i.serial_lt s h) })

def add (i : Interner) (bytes : List UInt8) : Str × Interner :=
  let s : Str := ⟨i.pool, i.next, bytes⟩
  (s,
    { i with
      next := i.next + 1
      buckets := i.buckets.push (i.hash bytes) s
      serial_lt := by
        obtain ⟨before, after, hold, hnew⟩ :=
          Buckets.exists_contents_push (i.hash bytes) s i.buckets
        have hlt := i.serial_lt
        intro t ht
        rw [hold] at hlt
        rw [hnew, List.mem_append, List.mem_cons] at ht
        rcases ht with ht | rfl | ht
        · exact Nat.lt_succ_of_lt (hlt t (List.mem_append_left _ ht))
        · exact Nat.lt_succ_self _
        · exact Nat.lt_succ_of_lt (hlt t (List.mem_append_right _ ht)) })

/-- The string of a short content, made if it is new; the flag tells whether it was. -/
def intern (i : Interner) (bytes : List UInt8) : Str × Bool × Interner :=
  match i.find? bytes with
  | some s => (s, false, i)
  | none => let (s, i) := i.add bytes; (s, true, i)

def sweep (i : Interner) (held : Str → Bool) : Interner :=
  { i with
    buckets := i.buckets.retain held
    serial_lt := fun s h => by
      rw [Buckets.contents_retain] at h
      exact i.serial_lt s (List.mem_filter.1 h).1 }

def unheldBytes (i : Interner) (held : Str → Bool) : Nat :=
  (i.buckets.contents.filter fun s => !held s).foldl (fun n s => n + s.length) 0

end Interner

end LuaData
