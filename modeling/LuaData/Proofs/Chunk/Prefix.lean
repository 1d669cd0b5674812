import LuaData.Chunk.Load
import LuaData.Proofs.Chunk.Reading
import Mathlib.Data.Nat.Find

namespace LuaData.Chunk

def Scan.resume (s : Scan) (rest : List UInt8) : Scan := { s with rest := rest }

def made {α : Type} : EStateM.Result Cause Scan α → List Request
  | .ok _ s | .error _ s => s.requests.toList

/-- What comes after the bytes that a reader takes does not matter to it. -/
structure Steady {α : Type} (r : Reader α) : Prop where
  grows : ∀ s, s.requests.toList <+: made (r s)
  ok : ∀ {s x s'}, r s = .ok x s' → ∃ taken, s.rest = taken ++ s'.rest ∧
    ∀ rest, r (s.resume (taken ++ rest)) = .ok x (s'.resume rest)
  error : ∀ {s e s'}, r s = .error e s' → e ≠ .truncated → ∀ tail, ∃ s'',
    r (s.resume (s.rest ++ tail)) = .error e s'' ∧ s''.requests = s'.requests
  truncated : ∀ {s s'}, r s = .error .truncated s' → ∀ tail,
    s'.requests.toList <+: made (r (s.resume (s.rest ++ tail)))

variable {α β : Type} {r : Reader α} {k : α → Reader β}

theorem Steady.extend (hr : Steady r) {s s' : Scan} {x : α} (h : r s = .ok x s')
    (tail : List UInt8) :
    r (s.resume (s.rest ++ tail)) = .ok x (s'.resume (s'.rest ++ tail)) := by
  obtain ⟨taken, hs, hrest⟩ := hr.ok h
  rw [hs, List.append_assoc]
  exact hrest _

theorem steady_pure (x : α) : Steady (pure x : Reader α) where
  grows s := List.prefix_refl _
  ok h := by
    cases h
    exact ⟨[], rfl, fun _ => rfl⟩
  error h := by cases h
  truncated h := by cases h

theorem steady_throw (e : Cause) : Steady (throw e : Reader α) where
  grows s := List.prefix_refl _
  ok h := by cases h
  error h _ _ := by
    cases h
    exact ⟨_, rfl, rfl⟩
  truncated h _ := by
    cases h
    exact List.prefix_refl _

theorem Steady.bind (hr : Steady r) (hk : ∀ x, Steady (k x)) : Steady (r >>= k) where
  grows s := by
    have hgrows := hr.grows s
    cases h : r s with
    | ok x s₁ =>
      rw [h] at hgrows
      rw [bind_of_ok h]
      exact hgrows.trans ((hk x).grows s₁)
    | error e s₁ =>
      rw [h] at hgrows
      rwa [bind_of_error h]
  ok {s y s'} hy := by
    cases h : r s with
    | ok x s₁ =>
      rw [bind_of_ok h] at hy
      obtain ⟨a, ha, hr⟩ := hr.ok h
      obtain ⟨b, hb, hk⟩ := (hk x).ok hy
      refine ⟨a ++ b, by rw [ha, hb, List.append_assoc], fun rest => ?_⟩
      rw [List.append_assoc]
      exact (bind_of_ok (hr _)).trans (hk rest)
    | error e s₁ =>
      rw [bind_of_error h] at hy
      cases hy
  error {s e s'} he hne tail := by
    cases h : r s with
    | ok x s₁ =>
      rw [bind_of_ok h] at he
      rw [bind_of_ok (hr.extend h tail)]
      exact (hk x).error he hne tail
    | error e s₁ =>
      rw [bind_of_error h] at he
      cases he
      obtain ⟨s'', hs, hrequests⟩ := hr.error h hne tail
      exact ⟨s'', bind_of_error hs, hrequests⟩
  truncated {s s'} ht tail := by
    cases h : r s with
    | ok x s₁ =>
      rw [bind_of_ok h] at ht
      rw [bind_of_ok (hr.extend h tail)]
      exact (hk x).truncated ht tail
    | error e s₁ =>
      rw [bind_of_error h] at ht
      cases ht
      -- with more input the first step may succeed, and what follows only adds requests
      have hmore := hr.truncated h tail
      cases h' : r (s.resume (s.rest ++ tail)) with
      | ok x s₂ =>
        rw [h'] at hmore
        rw [bind_of_ok h']
        exact hmore.trans ((hk x).grows s₂)
      | error e s₂ =>
        rw [h'] at hmore
        rwa [bind_of_error h']

/-- A reader that takes nothing, whatever there is. -/
theorem steady_of_idle (x : Scan → α) (g : Scan → Scan)
    (hr : ∀ s, r s = .ok (x s) (g s)) (hx : ∀ s rest, x (s.resume rest) = x s)
    (hg : ∀ s rest, g (s.resume rest) = (g s).resume rest) (hrest : ∀ s, (g s).rest = s.rest)
    (hgrows : ∀ s, s.requests.toList <+: (g s).requests.toList) : Steady r where
  grows s := by
    rw [hr]
    exact hgrows s
  ok {s y s'} h := by
    rw [hr] at h
    cases h
    refine ⟨[], (hrest s).symm, fun rest => ?_⟩
    rw [hr, hx, hg]
    rfl
  error h := by
    rw [hr] at h
    cases h
  truncated h := by
    rw [hr] at h
    cases h

theorem steady_request (q : Request) : Steady (Reader.request q) :=
  steady_of_idle (fun _ => ()) (fun s => { s with requests := s.requests.push q }) (fun _ => rfl)
    (fun _ _ => rfl) (fun _ _ => rfl) (fun _ => rfl)
    (fun s => by
      rw [Array.toList_push]
      exact List.prefix_append _ _)

theorem steady_bytes (n : Nat) : Steady (Reader.bytes n) where
  grows s := by
    unfold Reader.bytes
    split <;> exact List.prefix_refl _
  ok {s x s'} h := by
    unfold Reader.bytes at h
    split at h
    · rename_i a b ht
      cases h
      obtain ⟨hlength, hrest⟩ := takeExactly_eq_some_iff.1 ht
      refine ⟨x, hrest, fun rest => ?_⟩
      simp only [Reader.bytes, Scan.resume, takeExactly_eq_some_iff.2 ⟨hlength, rfl⟩]
    · cases h
  error h hne := by
    unfold Reader.bytes at h
    split at h <;> cases h
    exact absurd rfl hne
  truncated {s s'} h tail := by
    unfold Reader.bytes at h
    split at h <;> cases h
    unfold Reader.bytes
    split <;> exact List.prefix_refl _

theorem steady_byte : Steady Reader.byte := (steady_bytes 1).bind fun _ => steady_pure _

theorem steady_flag : Steady Reader.flag := steady_byte.bind fun _ => steady_pure _

theorem steady_word (width : Nat) : Steady (Reader.word width) :=
  (steady_bytes width).bind fun _ => steady_pure _

theorem steady_int : Steady Reader.int := (steady_word 4).bind fun _ => steady_pure _

theorem steady_field : Steady Reader.field := by
  refine steady_int.bind fun n => ?_
  split
  · exact steady_throw _
  · exact steady_pure n

theorem steady_count : Steady Reader.count := steady_field.bind fun _ => steady_pure _

theorem Steady.times (hr : Steady r) (n : Nat) : Steady (r.times n) := by
  induction n with
  | zero => exact steady_pure []
  | succ n ih => exact hr.bind fun x => ih.bind fun xs => steady_pure (x :: xs)

theorem Steady.list (hr : Steady r) (b : Block) : Steady (Reader.list b r) :=
  steady_count.bind fun n => (steady_request _).bind fun _ => hr.times n

theorem steady_string : Steady Reader.string := by
  refine (steady_word 8).bind fun size => ?_
  split
  · exact steady_pure none
  · refine (steady_bytes size).bind fun content => (steady_request _).bind fun _ => ?_
    exact steady_of_idle (fun s => some (Reader.provisional s.texts content.dropLast))
      (fun s => { s with texts := s.texts + 1 }) (fun _ => rfl) (fun _ _ => rfl) (fun _ _ => rfl)
      (fun _ => rfl) (fun _ => List.prefix_refl _)

theorem steady_constant : Steady Reader.constant := by
  refine steady_byte.bind fun tag => ?_
  split
  · exact steady_pure _
  · exact steady_flag.bind fun b => steady_pure _
  · exact (steady_word 8).bind fun x => steady_pure _
  · refine steady_string.bind fun s? => ?_
    split
    · exact steady_pure _
    · exact steady_throw _
  · exact steady_throw _

theorem steady_instruction : Steady Reader.instruction :=
  (steady_word 4).bind fun _ => steady_pure _

theorem steady_upvalue : Steady Reader.upvalue :=
  steady_flag.bind fun _ => steady_byte.bind fun _ => steady_pure _

theorem steady_localVar : Steady Reader.localVar :=
  steady_string.bind fun _ => steady_field.bind fun _ => steady_field.bind fun _ => steady_pure _

theorem steady_upvalueNames (us : List Upvalue) : Steady (Reader.upvalueNames us) := by
  refine steady_count.bind fun n => ?_
  split
  · exact steady_throw _
  · exact (steady_string.times n).bind fun _ => steady_pure _

theorem steady_accept (name : String) (f : Body) (childCount : Nat) :
    Steady (Reader.accept name f childCount) := by
  refine (steady_request _).bind fun _ => ?_
  split
  · exact steady_pure _
  · exact (steady_request _).bind fun _ => steady_throw _

theorem steady_function (name : String) (levels : Nat) : Steady (Reader.function name levels) := by
  induction levels with
  | zero => exact steady_throw _
  | succ levels ih =>
    rw [Reader.function]
    refine (steady_request _).bind fun _ => ?_
    refine steady_field.bind fun _ => steady_field.bind fun _ => ?_
    refine steady_byte.bind fun _ => steady_flag.bind fun _ => steady_byte.bind fun _ => ?_
    refine (steady_instruction.list _).bind fun _ => (steady_constant.list _).bind fun _ => ?_
    refine (ih.list _).bind fun _ => ?_
    refine (steady_upvalue.list _).bind fun _ => steady_string.bind fun _ => ?_
    refine (steady_int.list _).bind fun _ => (steady_localVar.list _).bind fun _ => ?_
    refine (steady_upvalueNames _).bind fun _ => ?_
    exact (steady_accept _ _ _).bind fun _ => steady_pure _

theorem steady_chunk (name : String) : Steady (Reader.chunk name) := by
  refine (steady_bytes _).bind fun h => ?_
  split
  · exact steady_throw _
  · exact steady_function name _

section Load

variable {c : Collector} {name : String} {bytes : List UInt8}

/-- A load that fails because its input has come to an end. -/
def Truncated (c : Collector) (name : String) (bytes : List UInt8) : Prop :=
  (load c name bytes).1 = .error (.rejected ⟨displayName name, .truncated⟩)

/-- What is served up to a refusal does not depend on later requests. -/
theorem Serving.serveAll_refused {s s' : Serving} {rs rs' : List Request} (hrs : rs <+: rs')
    (h : s.serveAll rs = (false, s')) : s.serveAll rs' = (false, s') := by
  obtain ⟨qs, rfl⟩ := hrs
  induction rs generalizing s with
  | nil => cases h
  | cons r rs ih =>
    rcases hs : s.serve r with ⟨granted, s₁⟩
    rw [Serving.serveAll, hs] at h
    rw [List.cons_append, Serving.serveAll, hs]
    cases granted with
    | false => exact h
    | true => exact ih h

/-- A refusal hides what reading comes to. -/
theorem load_of_refused {t : Serving}
    (h : Serving.serveAll ⟨c, [], #[]⟩ (made (scan (displayName name) bytes)) = (false, t)) :
    load c name bytes = (.error .outOfMemory, t.release) := by
  unfold load loadNamed
  cases hscan : scan (displayName name) bytes <;>
  · rw [hscan] at h
    simp only [made] at h
    simp only [h]

/-- A load comes out the same where reading gives the same after the same requests. -/
theorem load_of_scan {bytes' : List UInt8} {p : Prototype} {s s' : Scan}
    (h : scan (displayName name) bytes = .ok p s) (h' : scan (displayName name) bytes' = .ok p s')
    (hrequests : s'.requests = s.requests) : load c name bytes' = load c name bytes := by
  unfold load loadNamed
  simp only [h, h', hrequests]

/-- A load that is not truncated comes out the same on every longer input. -/
theorem load_append (h : ¬Truncated c name bytes) (tail : List UInt8) :
    load c name (bytes ++ tail) = load c name bytes := by
  have hsteady := steady_chunk (displayName name)
  cases hscan : scan (displayName name) bytes with
  | ok p s => exact load_of_scan hscan (hsteady.extend hscan tail) rfl
  | error e s =>
    by_cases he : e = .truncated
    · subst he
      have hmade : made (scan (displayName name) bytes) = s.requests.toList := by rw [hscan]; rfl
      rcases hserve : Serving.serveAll ⟨c, [], #[]⟩ s.requests.toList with ⟨granted, t⟩
      cases granted with
      | false =>
        -- the refusal came before the end of input
        rw [← hmade] at hserve
        rw [load_of_refused hserve]
        apply load_of_refused
        apply Serving.serveAll_refused _ hserve
        rw [hmade]
        exact hsteady.truncated hscan tail
      | true =>
        refine absurd ?_ h
        unfold Truncated load loadNamed
        simp only [hscan, hserve]
    · obtain ⟨s', hmore, hrequests⟩ := hsteady.error hscan he tail
      replace hmore : scan (displayName name) (bytes ++ tail) = .error e s' := hmore
      unfold load loadNamed
      simp only [hscan, hmore, hrequests]

theorem load_take {n : Nat} (h : ¬Truncated c name (bytes.take n)) :
    load c name bytes = load c name (bytes.take n) := by
  have hmore := load_append h (bytes.drop n)
  rwa [List.take_append_drop] at hmore

theorem exists_scan_of_load {f : Closure} (h : (load c name bytes).1 = .ok f) :
    ∃ p s, scan (displayName name) bytes = .ok p s := by
  unfold load loadNamed at h
  cases hscan : scan (displayName name) bytes with
  | ok p s => exact ⟨p, s, rfl⟩
  | error e s =>
    rw [hscan] at h
    dsimp only at h
    split at h <;> cases h

/-- What is loaded is loaded from the bytes that reading takes, and from no fewer. -/
theorem load_taken {f : Closure} (h : (load c name bytes).1 = .ok f) :
    ∃ p s taken, scan (displayName name) bytes = .ok p s ∧ bytes = taken ++ s.rest ∧
      load c name taken = load c name bytes ∧
      ∀ n < taken.length, Truncated c name (bytes.take n) := by
  obtain ⟨p, s, hscan⟩ := exists_scan_of_load h
  obtain ⟨taken, hbytes, hexact⟩ := (steady_chunk (displayName name)).ok hscan
  replace hbytes : bytes = taken ++ s.rest := hbytes
  have htaken : scan (displayName name) taken = .ok p (s.resume []) := by
    have h := hexact []
    rwa [List.append_nil] at h
  refine ⟨p, s, taken, hscan, hbytes, load_of_scan hscan htaken rfl, fun n hn => ?_⟩
  by_contra hne
  -- reading a shorter prefix would leave more bytes behind
  rw [load_take hne] at h
  obtain ⟨p', s', hshort⟩ := exists_scan_of_load h
  have hmore := (steady_chunk (displayName name)).extend hshort (bytes.drop n)
  replace hmore : scan (displayName name) (bytes.take n ++ bytes.drop n) =
    .ok p' (s'.resume (s'.rest ++ bytes.drop n)) := hmore
  rw [List.take_append_drop, hscan] at hmore
  cases hmore
  have hlength := congrArg List.length hbytes
  simp only [Scan.resume, List.length_append, List.length_drop] at hlength
  omega

/-- There is a shortest prefix on which a load is not truncated, if it is not on the whole input. -/
theorem exists_threshold (h : ¬Truncated c name bytes) : ∃ t ≤ bytes.length,
    ¬Truncated c name (bytes.take t) ∧ ∀ n < t, Truncated c name (bytes.take n) := by
  classical
  have hwhole : ¬Truncated c name (bytes.take bytes.length) := by rwa [List.take_length]
  have hexists : ∃ n, ¬Truncated c name (bytes.take n) := ⟨_, hwhole⟩
  exact ⟨Nat.find hexists, Nat.find_min' hexists hwhole, Nat.find_spec hexists,
    fun n hn => not_not.1 (Nat.find_min hexists hn)⟩

/-- The shortest prefix from which a chunk is loaded is what reading takes. -/
theorem rest_eq_drop {f : Closure} {t : Nat} (ht : ¬Truncated c name (bytes.take t))
    (hleast : ∀ n < t, Truncated c name (bytes.take n)) (hf : (load c name bytes).1 = .ok f) :
    ∃ p s, scan (displayName name) bytes = .ok p s ∧ s.rest = bytes.drop t := by
  obtain ⟨p, s, taken, hscan, hbytes, hload, hshort⟩ := load_taken hf
  have htaken : bytes.take taken.length = taken := by rw [hbytes, List.take_left]
  have hlength : t = taken.length := by
    rcases Nat.lt_trichotomy t taken.length with hlt | heq | hgt
    · exact absurd (hshort t hlt) ht
    · exact heq
    · have hrejected := hleast _ hgt
      rw [htaken, Truncated, hload, hf] at hrejected
      cases hrejected
  refine ⟨p, s, hscan, ?_⟩
  rw [hbytes, hlength, List.drop_left]

/-- Either the end of input stops a load on every prefix, or a prefix settles it: on a shorter one
the load is truncated, and it comes out the same, with the same effects on the collector, on every
input that starts with that prefix. Of a chunk that is loaded, that prefix is what reading takes. -/
theorem load_settles (c : Collector) (name : String) (bytes : List UInt8) :
    (∀ n, Truncated c name (bytes.take n)) ∨
    ∃ t ≤ bytes.length, ¬Truncated c name bytes ∧
      (∀ n < t, Truncated c name (bytes.take n)) ∧
      (∀ n, t ≤ n → load c name (bytes.take n) = load c name bytes) ∧
      (∀ tail, load c name (bytes.take t ++ tail) = load c name bytes) ∧
      ∀ f, (load c name bytes).1 = .ok f →
        ∃ p s, scan (displayName name) bytes = .ok p s ∧ s.rest = bytes.drop t := by
  by_cases htruncated : Truncated c name bytes
  · left
    intro n
    by_contra hne
    apply hne
    rwa [Truncated, ← load_take hne]
  · right
    -- `t` is the least length at which the load is not truncated
    obtain ⟨t, hle, ht, hleast⟩ := exists_threshold htruncated
    have hsettled (tail : List UInt8) :
        load c name (bytes.take t ++ tail) = load c name bytes := by
      rw [load_append ht, load_take ht]
    refine ⟨t, hle, htruncated, hleast, fun n hn => ?_, hsettled, fun f hf => ?_⟩
    · have hprefix := List.take_append_drop t (bytes.take n)
      rw [List.take_take, Nat.min_eq_left hn] at hprefix
      rw [← hprefix]
      exact hsettled _
    · exact rest_eq_drop ht hleast hf

end Load

end LuaData.Chunk
