import LuaData.Chunk.Reader
import LuaData.Chunk.Writer
import LuaData.Proofs.Chunk.Canonical

/-!
# Readers on what was written

A reader `Reads` bytes if it takes exactly these, whatever follows them. The strings it gives are
provisional; what is said of its result holds once they are resolved. A reader `Fails` on bytes with
a cause that does not depend on what follows either. In both cases a bound is known on what its
requests cost.
-/

namespace LuaData.Chunk

theorem takeExactly_append (bytes rest : List UInt8) :
    takeExactly bytes.length (bytes ++ rest) = some (bytes, rest) := by
  induction bytes with
  | nil => rfl
  | cons b bytes ih => simp [takeExactly, ih]

theorem takeExactly_eq_some_iff {n : Nat} {bytes a b : List UInt8} :
    takeExactly n bytes = some (a, b) ↔ a.length = n ∧ bytes = a ++ b := by
  constructor
  · intro h
    induction n generalizing bytes a with
    | zero =>
      cases h
      exact ⟨rfl, rfl⟩
    | succ n ih =>
      cases bytes with
      | nil => cases h
      | cons x bytes =>
        obtain ⟨⟨a, b⟩, ht, he⟩ := Option.map_eq_some_iff.1 h
        cases he
        obtain ⟨hlength, hbytes⟩ := ih ht
        exact ⟨congrArg Nat.succ hlength, congrArg (x :: ·) hbytes⟩
  · rintro ⟨rfl, rfl⟩
    exact takeExactly_append a b

def Request.cost : Request → Nat
  | .block b n => b.bytes n
  | .text bytes => (Str.ofContent bytes).memory
  | .note _ => 0

def cost (rs : List Request) : Nat := total Request.cost rs

def texts (rs : List Request) : List (List UInt8) :=
  rs.filterMap fun r => match r with
    | .text bytes => some bytes
    | _ => none

@[simp] theorem texts_append (rs rs' : List Request) : texts (rs ++ rs') = texts rs ++ texts rs' :=
  List.filterMap_append

def Resolves (f : Str → Str) (rs : List Request) : Prop :=
  ∀ i bytes, (texts rs)[i]? = some bytes → f (Reader.provisional i bytes) = .ofContent bytes

theorem resolves_anonymous (rs : List Request) : Resolves Str.anonymous rs := fun _ _ _ => rfl

theorem Resolves.left {f : Str → Str} {rs rs' : List Request} (h : Resolves f (rs ++ rs')) :
    Resolves f rs := fun i bytes hi => h i bytes (by
  rw [texts_append]
  exact (List.getElem?_append_left (List.getElem?_eq_some_iff.1 hi).1).trans hi)

def Scan.after (rs : List Request) (rest : List UInt8) : Scan where
  rest := rest
  requests := rs.toArray
  texts := (Chunk.texts rs).length

/-- `r` takes `bytes`, makes requests that cost at most `n`, and gives a result of which `P` holds
by any way to resolve its strings. -/
def Reads {α : Type} (r : Reader α) (bytes : List UInt8) (n : Nat) (P : (Str → Str) → α → Prop) :
    Prop :=
  ∀ rs rest, ∃ x qs, r (.after rs (bytes ++ rest)) = .ok x (.after (rs ++ qs) rest) ∧ cost qs ≤ n ∧
    ∀ f, Resolves f (rs ++ qs) → P f x

def Fails {α : Type} (r : Reader α) (bytes : List UInt8) (n : Nat) (e : Cause) : Prop :=
  ∀ rs rest, ∃ s qs, r (.after rs (bytes ++ rest)) = .error e s ∧ s.requests.toList = rs ++ qs ∧
    cost qs ≤ n

variable {α β : Type} {r : Reader α} {k : α → Reader β} {a b : List UInt8}
variable {P Q : (Str → Str) → α → Prop} {R : (Str → Str) → β → Prop} {n n' : Nat} {e : Cause}

theorem bind_of_ok {s s' : Scan} {x : α} (h : r s = .ok x s') : (r >>= k) s = k x s' := by
  change EStateM.bind r k s = k x s'
  rw [EStateM.bind, h]

theorem bind_of_error {s s' : Scan} (h : r s = .error e s') : (r >>= k) s = .error e s' := by
  change EStateM.bind r k s = .error e s'
  rw [EStateM.bind, h]

theorem reads_pure {x : α} (h : ∀ f, P f x) : Reads (pure x) [] 0 P := fun rs rest =>
  ⟨x, [], by rw [List.append_nil]; rfl, Nat.le_refl 0, fun f _ => h f⟩

theorem Reads.bind (hr : Reads r a n P)
    (hk : ∀ x, P Str.anonymous x → Reads (k x) b n' fun f y => P f x → R f y) :
    Reads (r >>= k) (a ++ b) (n + n') R := by
  intro rs rest
  obtain ⟨x, qs, hx, hn, hP⟩ := hr rs (b ++ rest)
  obtain ⟨y, qs', hy, hn', hR⟩ := hk x (hP _ (resolves_anonymous _)) (rs ++ qs) rest
  refine ⟨y, qs ++ qs', ?_, ?_, fun f hf => ?_⟩
  · rw [List.append_assoc, ← List.append_assoc rs]
    exact (bind_of_ok hx).trans hy
  · rw [cost, total_append]
    exact Nat.add_le_add hn hn'
  · rw [← List.append_assoc] at hf
    exact hR f hf (hP f hf.left)

/-- A step that takes nothing. -/
theorem Reads.bind_nil (hr : Reads r [] n P)
    (hk : ∀ x, P Str.anonymous x → Reads (k x) b n' fun f y => P f x → R f y) :
    Reads (r >>= k) b (n + n') R := hr.bind hk

/-- A step that asks for nothing. -/
theorem Reads.bind_free (hr : Reads r a 0 P)
    (hk : ∀ x, P Str.anonymous x → Reads (k x) b n fun f y => P f x → R f y) :
    Reads (r >>= k) (a ++ b) n R := by
  have h := hr.bind hk
  rwa [Nat.zero_add] at h

theorem Reads.mono (hr : Reads r a n P) (hn : n ≤ n') : Reads r a n' P := by
  intro rs rest
  obtain ⟨x, qs, hx, hle, hP⟩ := hr rs rest
  exact ⟨x, qs, hx, Nat.le_trans hle hn, hP⟩

theorem Reads.imp (hr : Reads r a n P) (h : ∀ f x, P f x → Q f x) : Reads r a n Q := by
  intro rs rest
  obtain ⟨x, qs, hx, hn, hP⟩ := hr rs rest
  exact ⟨x, qs, hx, hn, fun f hf => h f x (hP f hf)⟩

/-- A step after which nothing is taken or asked for. -/
theorem Reads.bind_last (hr : Reads r a n P)
    (hk : ∀ x, P Str.anonymous x → Reads (k x) [] 0 fun f y => P f x → R f y) :
    Reads (r >>= k) a n R := by
  have h := hr.bind hk
  rwa [List.append_nil] at h

theorem Reads.map {g : α → β} (hr : Reads r a n P) (h : ∀ f x, P f x → R f (g x)) :
    Reads (do return g (← r)) a n R :=
  hr.bind_last fun x _ => reads_pure fun f hP => h f x hP

theorem fails_throw : Fails (throw e : Reader α) [] 0 e := fun rs rest =>
  ⟨.after rs rest, [], rfl, (List.append_nil rs).symm, Nat.le_refl 0⟩

theorem Fails.mono (h : Fails r a n e) (hn : n ≤ n') : Fails r a n' e := by
  intro rs rest
  obtain ⟨s, qs, hs, hqs, hle⟩ := h rs rest
  exact ⟨s, qs, hs, hqs, Nat.le_trans hle hn⟩

theorem Fails.bind (hr : Fails r a n e) : Fails (r >>= k) (a ++ b) n e := by
  intro rs rest
  obtain ⟨s, qs, hs, h⟩ := hr rs (b ++ rest)
  refine ⟨s, qs, ?_, h⟩
  rw [List.append_assoc]
  exact bind_of_error hs

theorem Fails.map {g : α → β} (hr : Fails r a n e) : Fails (do return g (← r)) a n e := by
  have hb := hr.bind (k := fun x => pure (g x)) (b := [])
  rwa [List.append_nil] at hb

theorem Reads.bind_fails (hr : Reads r a n P) (hk : ∀ x, P Str.anonymous x → Fails (k x) b n' e) :
    Fails (r >>= k) (a ++ b) (n + n') e := by
  intro rs rest
  obtain ⟨x, qs, hx, hn, hP⟩ := hr rs (b ++ rest)
  obtain ⟨s, qs', hs, hqs, hn'⟩ := hk x (hP _ (resolves_anonymous _)) (rs ++ qs) rest
  refine ⟨s, qs ++ qs', ?_, by rw [hqs, List.append_assoc], ?_⟩
  · rw [List.append_assoc]
    exact (bind_of_ok hx).trans hs
  · rw [cost, total_append]
    exact Nat.add_le_add hn hn'

theorem Reads.bind_free_fails (hr : Reads r a 0 P)
    (hk : ∀ x, P Str.anonymous x → Fails (k x) b n e) : Fails (r >>= k) (a ++ b) n e := by
  have h := hr.bind_fails hk
  rwa [Nat.zero_add] at h

theorem Reads.bind_last_fails (hr : Reads r a n P)
    (hk : ∀ x, P Str.anonymous x → Fails (k x) [] 0 e) : Fails (r >>= k) a n e := by
  have h := hr.bind_fails hk
  rwa [List.append_nil] at h

end LuaData.Chunk
