import LuaData.Proofs.Replay

namespace LuaData

inductive Call where
  | alloc (b : Block) (count : Nat)
  | realloc (b : Block) (old new : Nat)
  | string (content : List UInt8)
  | free (b : Block) (count : Nat)

/-- A collector and the blocks that it has granted and that were not given back. A string that it
was charged for counts as a block of its bytes. -/
structure Account where
  collector : Collector
  held : Multiset (Block × Nat)

namespace Call

/-- Only what was granted is given back or changes its size. A block without elements is none. -/
def Proper (held : Multiset (Block × Nat)) : Call → Prop
  | realloc b old _ => part b old ≤ held
  | free b count => part b count ≤ held
  | alloc _ _ | string _ => True

instance (held : Multiset (Block × Nat)) : DecidablePred (Proper held)
  | alloc _ _ => .isTrue trivial
  | realloc b old _ => inferInstanceAs (Decidable (part b old ≤ held))
  | string _ => .isTrue trivial
  | free b count => inferInstanceAs (Decidable (part b count ≤ held))

def bytes (c : Collector) : Call → Int
  | alloc b count => b.bytes count
  | realloc b old new => b.bytes new - b.bytes old
  | string content =>
    if (c.interner.find? content).isSome then 0 else Block.stringBytes.bytes content.length
  | free b count => -b.bytes count

def settle (a : Account) : Call → Multiset (Block × Nat)
  | alloc b count => part b count + a.held
  | realloc b old new => part b new + (a.held - part b old)
  | string content =>
    if (a.collector.interner.find? content).isSome then a.held
    else part .stringBytes content.length + a.held
  | free b count => a.held - part b count

def perform (c : Collector) : Call → Bool × Collector
  | alloc b count => c.alloc b count
  | realloc b old new => c.realloc b old new
  | string content => ((c.createString content).1.isSome, (c.createString content).2)
  | free b count => (true, c.free b count)

end Call

namespace Account

def start (pool : Nat) (limit : Int) : Account := ⟨.new pool limit, 0⟩

def make (a : Account) (call : Call) : Bool × Account :=
  match call.perform a.collector with
  | (true, c) => (true, ⟨c, call.settle a⟩)
  | (false, c) => (false, ⟨c, a.held⟩)

def run? (a : Account) : List Call → Option Account
  | [] => some a
  | call :: calls => if call.Proper a.held then (a.make call).2.run? calls else none

end Account

namespace Collector

structure Granted (c c' : Collector) (bytes : Int) : Prop where
  total : c'.total = c.total + bytes
  overflowed : c'.overflowed = (c.overflowed || !fits c'.total)
  limit : c'.limit = c.limit
  declines : c'.declines = c.declines

variable {c c' : Collector} {bytes : Int}

theorem charge_eq (hc : ∀ stats, c.declines stats = false) (bytes : Int) :
    (c.charge bytes = (true, c.grow bytes) ∧
      (0 < bytes → min (c.total + bytes) unlimited ≤ c.limit)) ∨
      c.charge bytes = (false, c.refuse bytes) ∧
        0 < bytes ∧ c.limit < min (c.total + bytes) unlimited := by
  have hadmits : c.admits bytes = true ↔ bytes ≤ 0 ∨ min (c.total + bytes) unlimited ≤ c.limit := by
    rw [admits, hc, Bool.not_false, Bool.true_and, decide_eq_true_iff]
    rfl
  unfold charge
  split
  · rename_i h
    refine .inl ⟨rfl, fun hpos => ?_⟩
    exact (hadmits.1 h).resolve_left (Int.not_le.2 hpos)
  · rename_i h
    rw [hadmits, not_or, Int.not_le, Int.not_le] at h
    exact .inr ⟨rfl, h⟩

end Collector

namespace Call

open Collector

/-- A call accounts for its bytes, or it is refused because of them. -/
theorem perform_cases {c : Collector} (hc : ∀ stats, c.declines stats = false)
    (hfits : c.overflowed = (c.overflowed || !fits c.total)) (call : Call) :
    (∃ c', call.perform c = (true, c') ∧ Granted c c' (call.bytes c) ∧
      (0 < call.bytes c → min (c.total + call.bytes c) unlimited ≤ c.limit)) ∨
    call.perform c = (false, c.refuse (call.bytes c)) ∧
      0 < call.bytes c ∧ c.limit < min (c.total + call.bytes c) unlimited := by
  cases call with
  | alloc b count =>
    rw [perform, Collector.alloc]
    rcases charge_eq hc (b.bytes count) with ⟨h, hle⟩ | ⟨h, hlt⟩ <;> rw [h]
    · exact .inl ⟨_, rfl, ⟨rfl, rfl, rfl, rfl⟩, hle⟩
    · exact .inr ⟨rfl, hlt⟩
  | realloc b old new =>
    rw [perform, Collector.realloc]
    rcases charge_eq hc (b.bytes new - b.bytes old) with ⟨h, hle⟩ | ⟨h, hlt⟩ <;> rw [h]
    · exact .inl ⟨_, rfl, ⟨rfl, rfl, rfl, rfl⟩, hle⟩
    · exact .inr ⟨rfl, hlt⟩
  | string content =>
    rw [perform, createString, bytes]
    cases c.interner.find? content with
    | some t =>
      -- nothing is charged, so the total is in the range if it was before
      have hgranted : Granted c (c.record (.string content.length)) 0 :=
        ⟨(Int.add_zero _).symm, hfits, rfl, rfl⟩
      exact .inl ⟨_, rfl, hgranted, fun h => absurd h (Int.lt_irrefl 0)⟩
    | none =>
      dsimp only
      rcases charge_eq hc (Block.stringBytes.bytes content.length) with ⟨h, hle⟩ | ⟨h, hlt⟩ <;>
        rw [h]
      · exact .inl ⟨_, rfl, ⟨rfl, rfl, rfl, rfl⟩, hle⟩
      · exact .inr ⟨rfl, hlt⟩
  | free b count =>
    refine .inl ⟨_, rfl, ⟨rfl, rfl, rfl, rfl⟩, fun hpos => ?_⟩
    rw [bytes] at hpos
    omega

theorem weight_settle {a : Account} {call : Call} (hcall : call.Proper a.held) :
    (weight (call.settle a) : Int) = weight a.held + call.bytes a.collector := by
  -- what is given back is part of what is outstanding
  have hsub {b : Block} {n : Nat} (hle : part b n ≤ a.held) :
      weight (a.held - part b n) + b.bytes n = weight a.held := by
    rw [← weight_part b n, ← weight_add, tsub_add_cancel_of_le hle]
  cases call with
  | alloc b count =>
    rw [settle, bytes, weight_add, weight_part]
    omega
  | realloc b old new =>
    have hheld := hsub hcall
    rw [settle, bytes, weight_add, weight_part]
    omega
  | string content =>
    rw [settle, bytes]
    split
    · exact (Int.add_zero _).symm
    · rw [weight_add, weight_part]
      omega
  | free b count =>
    have hheld := hsub hcall
    rw [settle, bytes]
    omega

end Call

namespace Account

open Collector

variable {pool : Nat} {limit : Int} {a a' : Account} {call : Call} {calls : List Call}

/-- What holds of an account at any time, given the limit that it started with. -/
structure Sound (a : Account) (limit : Int) : Prop where
  willing : ∀ stats, a.collector.declines stats = false
  limited : a.collector.limit = limit
  total : a.collector.total = weight a.held
  /-- Nothing is granted beyond a limit. A negative one is below the total from the start. -/
  within : limit < unlimited → a.collector.total ≤ max limit 0
  /-- If the total is out of the range, the run has ended. -/
  ended : a.collector.overflowed = (a.collector.overflowed || !fits a.collector.total)

theorem sound_start (pool : Nat) (limit : Int) : (start pool limit).Sound limit where
  willing _ := rfl
  limited := rfl
  total := rfl
  within _ := Int.le_max_right limit 0
  ended := rfl

theorem Sound.fits_iff (ha : a.Sound limit) (hlimit : limit ≤ unlimited) :
    fits a.collector.total = true ↔ ¬(limit = unlimited ∧ unlimited < weight a.held) := by
  have hwithin := ha.within
  have hpos : (0 : Int) ≤ unlimited := by decide
  rw [ha.total] at hwithin ⊢
  rw [fits, decide_eq_true_iff]
  omega

theorem Sound.make_cases (ha : a.Sound limit) (call : Call) :
    (∃ c', a.make call = (true, ⟨c', call.settle a⟩) ∧
      Granted a.collector c' (call.bytes a.collector) ∧ (0 < call.bytes a.collector →
        min (a.collector.total + call.bytes a.collector) unlimited ≤ limit)) ∨
    a.make call = (false, ⟨a.collector.refuse (call.bytes a.collector), a.held⟩) ∧
      0 < call.bytes a.collector ∧
        limit < min (a.collector.total + call.bytes a.collector) unlimited := by
  unfold Account.make
  rw [← ha.limited]
  rcases call.perform_cases ha.willing ha.ended with ⟨c', hc, hgranted⟩ | ⟨hc, hrefused⟩ <;> rw [hc]
  · exact .inl ⟨c', rfl, hgranted⟩
  · exact .inr ⟨rfl, hrefused⟩

theorem Sound.make (ha : a.Sound limit) (hcall : call.Proper a.held) :
    (a.make call).2.Sound limit := by
  rcases ha.make_cases call with ⟨c', hmake, hgranted, hle⟩ | ⟨hmake, -⟩ <;> rw [hmake]
  · have htotal := hgranted.total
    refine ⟨?_, hgranted.limit.trans ha.limited, ?_, fun hlimit => ?_, ?_⟩
    · rw [hgranted.declines]
      exact ha.willing
    · rw [htotal, ha.total]
      exact (Call.weight_settle hcall).symm
    · have hwithin := ha.within hlimit
      change c'.total ≤ max limit 0
      omega
    · change c'.overflowed = (c'.overflowed || !fits c'.total)
      rw [hgranted.overflowed, Bool.or_assoc, Bool.or_self]
  · exact ⟨ha.willing, ha.limited, ha.total, ha.within, ha.ended⟩

/-- Without a limit nothing is refused, however much is outstanding. -/
theorem Sound.refused_iff (ha : a.Sound limit) (hlimit : limit ≤ unlimited) (call : Call) :
    (a.make call).1 = false ↔ 0 < call.bytes a.collector ∧ limit < unlimited ∧
      limit < weight a.held + call.bytes a.collector := by
  rw [← ha.total]
  rcases ha.make_cases call with ⟨c', hmake, -, hle⟩ | ⟨hmake, hpos, hlt⟩ <;> rw [hmake]
  · refine ⟨fun h => (by cases h), fun ⟨hpos, hlimited, hlt⟩ => ?_⟩
    have hsum := hle hpos
    omega
  · exact ⟨fun _ => ⟨hpos, by omega, by omega⟩, fun _ => rfl⟩

theorem Sound.make_of_refused (ha : a.Sound limit) (h : (a.make call).1 = false) :
    (a.make call).2 = ⟨a.collector.refuse (call.bytes a.collector), a.held⟩ := by
  rcases ha.make_cases call with ⟨c', hmake, -⟩ | ⟨hmake, -⟩
  · rw [hmake] at h
    cases h
  · rw [hmake]

theorem Sound.total_le_of_granted (ha : a.Sound limit) (h : (a.make call).1 = true)
    (hpos : 0 < call.bytes a.collector) (hlimited : limit < unlimited) :
    (a.make call).2.collector.total ≤ limit := by
  rcases ha.make_cases call with ⟨c', hmake, hgranted, hle⟩ | ⟨hmake, -⟩ <;> rw [hmake] at h ⊢
  · have hsum := hle hpos
    have htotal := hgranted.total
    change c'.total ≤ limit
    omega
  · cases h

theorem Sound.held_of_granted (ha : a.Sound limit) (h : (a.make call).1 = true) :
    (a.make call).2.held = call.settle a := by
  rcases ha.make_cases call with ⟨c', hmake, -⟩ | ⟨hmake, -⟩ <;> rw [hmake] at h ⊢
  cases h

/-- Every call that leaves a total out of the range ends the run. -/
theorem Sound.overflowed_make (ha : a.Sound limit) (call : Call) :
    (a.make call).2.collector.overflowed =
      (a.collector.overflowed || !fits (a.make call).2.collector.total) := by
  rcases ha.make_cases call with ⟨c', hmake, hgranted, -⟩ | ⟨hmake, -⟩ <;> rw [hmake]
  · exact hgranted.overflowed
  · exact ha.ended

theorem Sound.run (ha : a.Sound limit) (h : a.run? calls = some a') : a'.Sound limit := by
  induction calls generalizing a with
  | nil =>
    cases h
    exact ha
  | cons call calls ih =>
    rw [run?] at h
    split at h
    · rename_i hcall
      exact ih (ha.make hcall) h
    · cases h

/-- After any run of calls, and whatever call comes next, the total is exactly the bytes
outstanding. The call is refused if and only if it adds bytes and there is a limit that these
exceed; then it counts as refused and changes nothing else. If it is granted and adds bytes, the
total is within the limit afterwards. The total leaves the range of a word, and the run ends, if and
only if there is no limit and the outstanding bytes are too many for one. -/
theorem accounts_of_run (hlimit : limit ≤ unlimited)
    (h : (start pool limit).run? calls = some a) (hcall : call.Proper a.held) {granted : Bool}
    (hmake : a.make call = (granted, a')) :
    a'.collector.total = weight a'.held ∧
    (granted = false ↔ 0 < call.bytes a.collector ∧ limit < unlimited ∧
      limit < weight a.held + call.bytes a.collector) ∧
    (granted = false → a'.held = a.held ∧ a'.collector = { a.collector with
      stats := { a.collector.stats with refused := a.collector.stats.refused + 1 }
      journal := a'.collector.journal }) ∧
    (granted = true → weight a'.held = weight a.held + call.bytes a.collector ∧
      (0 < call.bytes a.collector → limit < unlimited → a'.collector.total ≤ limit)) ∧
    (fits a'.collector.total = true ↔ ¬(limit = unlimited ∧ unlimited < weight a'.held)) ∧
    (a'.collector.overflowed = true ↔ a.collector.overflowed = true ∨
      limit = unlimited ∧ unlimited < weight a'.held) := by
  have ha := (sound_start pool limit).run h
  obtain ⟨rfl, rfl⟩ : (a.make call).1 = granted ∧ (a.make call).2 = a' := Prod.ext_iff.1 hmake
  have ha' := ha.make hcall
  refine ⟨ha'.total, ha.refused_iff hlimit call, fun hrefused => ?_, fun hgranted => ⟨?_, ?_⟩,
    ha'.fits_iff hlimit, ?_⟩
  · rw [ha.make_of_refused hrefused]
    exact ⟨rfl, rfl⟩
  · rw [ha.held_of_granted hgranted]
    exact Call.weight_settle hcall
  · exact ha.total_le_of_granted hgranted
  · rw [ha.overflowed_make, Bool.or_eq_true, Bool.not_eq_true', ← Bool.not_eq_true,
      ha'.fits_iff hlimit, not_not]

/-- Sixty bytes more do not fit into a hundred after sixty. -/
theorem accounts_of_run_limited : ∃ a a',
    (start 1 100).run? [.alloc .stringBytes 60] = some a ∧
      a.make (.alloc .stringBytes 60) = (false, a') ∧ a'.collector.total = weight a'.held ∧
      a'.collector.stats.refused = 1 := by
  have hrun : (start 1 100).run? [.alloc .stringBytes 60] =
      some ((start 1 100).make (.alloc .stringBytes 60)).2 := rfl
  have hcall : (Call.alloc .stringBytes 60).Proper
      ((start 1 100).make (.alloc .stringBytes 60)).2.held := trivial
  exact ⟨_, _, hrun, rfl, (accounts_of_run (by decide) hrun hcall rfl).1, rfl⟩

/-- Without a limit, a second block is granted on top of one that fills the range. -/
theorem exists_total_not_fits : ∃ a,
    (start 1 unlimited).run? [.alloc .stringBytes Block.byteLimit, .alloc .stringBytes 1] = some a ∧
      a.collector.stats.refused = 0 ∧ fits a.collector.total = false := ⟨_, rfl, rfl, rfl⟩

end Account

end LuaData
