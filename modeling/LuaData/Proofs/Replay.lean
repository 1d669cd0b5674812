import LuaData.Proofs.Collector
import Mathlib.Algebra.BigOperators.Group.Multiset.Basic

namespace LuaData

def part (b : Block) (n : Nat) : Multiset (Block × Nat) := if n = 0 then 0 else {(b, n)}

def weight (held : Multiset (Block × Nat)) : Nat := (held.map fun b => b.1.bytes b.2).sum

/-- The blocks outstanding after a call, given those before it. A block that changes its size is the
only one of its kind, and only an outstanding block may be freed. -/
def Event.after? (held : Multiset (Block × Nat)) : Event → Option (Multiset (Block × Nat))
  | .alloc b n => some ((b, n) ::ₘ held)
  | .realloc b old new =>
    if held.filter (fun x => x.1 = b) = part b old then
      some (part b new + held.filter fun x => x.1 ≠ b)
    else none
  | .free b n => if (b, n) ∈ held then some (held.erase (b, n)) else none
  | .barrier _ _ | .string _ => some held

def replay? (held : Multiset (Block × Nat)) : List Event → Option (Multiset (Block × Nat))
  | [] => some held
  | e :: es => (e.after? held).bind fun held => replay? held es

theorem replay?_append (held : Multiset (Block × Nat)) (es es' : List Event) :
    replay? held (es ++ es') = (replay? held es).bind fun held => replay? held es' := by
  induction es generalizing held with
  | nil => rfl
  | cons e es ih =>
    rw [List.cons_append, replay?, replay?, Option.bind_assoc]
    exact congrArg _ (funext ih)

theorem weight_part (b : Block) (n : Nat) : weight (part b n) = b.bytes n := by
  unfold part
  split_ifs with hn
  · rw [hn, Block.bytes, Nat.zero_mul, Nat.zero_min]
    rfl
  · exact Multiset.sum_singleton _

theorem weight_add (held held' : Multiset (Block × Nat)) :
    weight (held + held') = weight held + weight held' := by
  rw [weight, Multiset.map_add, Multiset.sum_add]
  rfl

theorem weight_cons (b : Block) (n : Nat) (held : Multiset (Block × Nat)) :
    weight ((b, n) ::ₘ held) = b.bytes n + weight held := by
  rw [weight, Multiset.map_cons, Multiset.sum_cons]
  rfl

namespace Collector

/-- Between `c` and `c'` calls have taken the outstanding blocks from `held` to `held'`, and what
was accounted for is what these weigh more. -/
structure Moves (c c' : Collector) (held held' : Multiset (Block × Nat)) : Prop where
  events : ∃ es, c'.events.toList = c.events.toList ++ es ∧ replay? held es = some held'
  total : c'.total + weight held = c.total + weight held'

def Idle (c c' : Collector) : Prop := ∀ held, Moves c c' held held

variable {c c' c'' : Collector} {held held' held'' : Multiset (Block × Nat)} {b : Block} {n : Nat}

theorem Moves.trans (h : Moves c c' held held') (h' : Moves c' c'' held' held'') :
    Moves c c'' held held'' := by
  obtain ⟨es, he, hr⟩ := h.events
  obtain ⟨es', he', hr'⟩ := h'.events
  refine ⟨⟨es ++ es', by rw [he', he, List.append_assoc], ?_⟩, ?_⟩
  · rw [replay?_append, hr]
    exact hr'
  · have ht := h.total
    have ht' := h'.total
    omega

theorem Idle.refl (c : Collector) : Idle c c := fun _ => ⟨⟨[], (List.append_nil _).symm, rfl⟩, rfl⟩

theorem Idle.trans (h : Idle c c') (h' : Idle c' c'') : Idle c c'' := fun held =>
  (h held).trans (h' held)

theorem Unmoved.idle (h : Unmoved c c') : Idle c c' := fun _ =>
  ⟨⟨[], by rw [h.events, List.append_nil], rfl⟩, by rw [h.total]⟩

theorem idle_log (c : Collector) (level : Level) (text : String) : Idle c (c.log level text) :=
  (c.unmoved_log level text).idle

/-- One call that was carried out. -/
theorem Called.moves {e : Event} {bytes : Int} (h : Called c c' e bytes)
    (hr : e.after? held = some held') (hbytes : bytes + weight held = weight held') :
    Moves c c' held held' where
  events := by
    refine ⟨[e], by rw [h.events]; exact Array.toList_push, ?_⟩
    rw [replay?, hr]
    rfl
  total := by
    rw [h.total, Int.add_assoc, hbytes]

theorem idle_noteStored (c : Collector) (owner : Owner) (v : Value) :
    Idle c (c.noteStored owner v) := by
  unfold noteStored
  split
  · exact fun held => (c.called_barrier owner v).moves rfl (Int.zero_add _)
  · exact .refl c

/-- Strings are no outstanding blocks. -/
theorem events_createString (c : Collector) (bytes : List UInt8) : ∃ es,
    (c.createString bytes).2.events.toList = c.events.toList ++ es ∧
      ∀ held, replay? held es = some held := by
  rcases c.createString_cases bytes with
    ⟨t, c', hc, -, h⟩ | ⟨t, c', hc, hevents, -⟩ | ⟨c', hc, h, -⟩ <;> rw [hc]
  · exact ⟨[.string bytes.length], by rw [h.events]; exact Array.toList_push, fun _ => rfl⟩
  · exact ⟨[.string bytes.length], by rw [hevents]; exact Array.toList_push, fun _ => rfl⟩
  · exact ⟨[], by rw [h.events, List.append_nil], fun _ => rfl⟩

theorem Called.moves_alloc (h : Called c c' (.alloc b n) (b.bytes n))
    (held : Multiset (Block × Nat)) : Moves c c' held ((b, n) ::ₘ held) :=
  h.moves rfl (by rw [weight_cons]; exact (Int.natCast_add _ _).symm)

theorem moves_free (c : Collector) (b : Block) (n : Nat) (held : Multiset (Block × Nat)) :
    Moves c (c.free b n) ((b, n) ::ₘ held) held := by
  refine (c.called_free b n).moves ?_ ?_
  · rw [Event.after?, if_pos (Multiset.mem_cons_self _ _), Multiset.erase_cons_head]
  · rw [weight_cons]
    omega

/-- The block that changes its size may have been none, and may be none afterwards. -/
theorem Called.moves_realloc {old new : Nat}
    (h : Called c c' (.realloc b old new) (b.bytes new - b.bytes old))
    {rest : Multiset (Block × Nat)} (hrest : ∀ x ∈ rest, x.1 ≠ b) :
    Moves c c' (part b old + rest) (part b new + rest) := by
  have hpart : ∀ x ∈ part b old, x.1 = b := by
    intro x hx
    unfold part at hx
    split_ifs at hx
    · exact absurd hx (Multiset.notMem_zero x)
    · rw [Multiset.mem_singleton.1 hx]
  have hkind : (part b old + rest).filter (fun x => x.1 = b) = part b old := by
    rw [Multiset.filter_add, Multiset.filter_eq_self.2 hpart, Multiset.filter_eq_nil.2 hrest,
      add_zero]
  have hother : (part b old + rest).filter (fun x => x.1 ≠ b) = rest := by
    rw [Multiset.filter_add, Multiset.filter_eq_self.2 hrest,
      Multiset.filter_eq_nil.2 fun x hx hne => hne (hpart x hx), zero_add]
  refine h.moves ?_ ?_
  · rw [Event.after?, if_pos hkind, hother]
  · rw [weight_add, weight_add, weight_part, weight_part]
    omega

end Collector

end LuaData
