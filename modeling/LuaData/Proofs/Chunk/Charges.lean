import LuaData.Proofs.Chunk.RoundTrip
import LuaData.Proofs.Interner

namespace LuaData

def Event.charge? : Event → Option (Block × Nat)
  | .alloc b n => some (b, n)
  | .string n => if n ≤ Str.shortLimit then none else some (.stringBytes, n)
  | _ => none

def charges (es : List Event) : List (Block × Nat) := es.filterMap Event.charge?

def frees (bs : List (Block × Nat)) : List Event := bs.map fun b => .free b.1 b.2

def bytesOf (bs : List (Block × Nat)) : Nat := total (fun b => b.1.bytes b.2) bs

def lengths (ss : List Str) : Nat := total Str.length ss

theorem charges_append (es es' : List Event) : charges (es ++ es') = charges es ++ charges es' :=
  List.filterMap_append

theorem bytesOf_append (bs bs' : List (Block × Nat)) :
    bytesOf (bs ++ bs') = bytesOf bs + bytesOf bs' := total_append _ _ _

theorem lengths_append (ss ss' : List Str) : lengths (ss ++ ss') = lengths ss + lengths ss' :=
  total_append _ _ _

theorem bytesOf_eq_of_perm {bs bs' : List (Block × Nat)} (h : bs.Perm bs') :
    bytesOf bs = bytesOf bs' := total_eq_of_perm _ h

theorem Str.memory_of_isShort {s : Str} (h : s.isShort = true) : s.memory = s.length := by
  have hle : s.length ≤ shortLimit := of_decide_eq_true h
  rw [memory, Block.bytes, Nat.min_eq_left]
  · exact Nat.mul_one _
  · rw [shortLimit] at hle
    rw [Block.elementSize, Block.byteLimit]
    omega

namespace Interner

def Unmade (i : Interner) (s : Str) : Prop := s.pool = i.pool ∧ i.next ≤ s.serial

/-- A sweep takes the bytes of the strings that nobody holds. -/
theorem unheldBytes_eq (i : Interner) (held : Str → Bool) :
    i.unheldBytes held = lengths (i.strings.filter fun s => !held s) := by
  have hsum (n : Nat) (ss : List Str) :
      ss.foldl (fun n s => n + s.length) n = n + lengths ss := by
    induction ss generalizing n with
    | nil => rfl
    | cons s ss ih => rw [List.foldl_cons, ih, lengths, lengths, total_cons, Nat.add_assoc]
  rw [unheldBytes, hsum, Nat.zero_add]
  exact total_eq_of_perm _ (i.perm_strings.filter _).symm

theorem length_le_of_find? {i : Interner} {bytes : List UInt8} {t : Str}
    (h : i.find? bytes = some t) : bytes.length ≤ Str.shortLimit := by
  unfold find? at h
  split at h
  · assumption
  · cases h

end Interner

namespace Collector

/-- `c'` is `c` after calls `es` that give nothing back, in which the strings `made` were
interned. -/
structure Grown (c c' : Collector) (es : List Event) (made : List Str) : Prop where
  events : c'.events.toList = c.events.toList ++ es
  frees : ∀ b n, .free b n ∉ es
  reallocs : ∀ b m n, .realloc b m n ∉ es
  total : c'.total = c.total + bytesOf (charges es) + lengths made
  strings : c'.interner.strings = made ++ c.interner.strings
  fresh : ∀ s ∈ made, s.isShort = true ∧ c.interner.Unmade s
  pool : c'.interner.pool = c.interner.pool
  next : c.interner.next ≤ c'.interner.next

variable {c c' c'' : Collector} {es es' : List Event} {made made' : List Str}

theorem Grown.of_unmoved (h : Unmoved c c') : Grown c c' [] [] where
  events := by rw [h.events, List.append_nil]
  frees _ _ := List.not_mem_nil
  reallocs _ _ _ := List.not_mem_nil
  total := by
    rw [h.total]
    exact ((Int.add_zero _).trans (Int.add_zero _)).symm
  strings := by rw [h.interner, List.nil_append]
  fresh _ h := absurd h List.not_mem_nil
  pool := by rw [h.interner]
  next := Nat.le_of_eq (by rw [h.interner])

/-- A call that makes no string. -/
theorem Grown.of_called {e : Event} {bytes : Nat} (h : Called c c' e bytes)
    (hbytes : bytesOf (charges [e]) = bytes) (hfree : ∀ b n, .free b n ≠ e)
    (hrealloc : ∀ b m n, .realloc b m n ≠ e) : Grown c c' [e] [] where
  events := by
    rw [h.events]
    exact Array.toList_push
  frees b n hm := hfree b n (List.mem_singleton.1 hm)
  reallocs b m n hm := hrealloc b m n (List.mem_singleton.1 hm)
  total := by
    rw [h.total, hbytes]
    exact (Int.add_zero _).symm
  strings := by rw [h.interner, List.nil_append]
  fresh _ h := absurd h List.not_mem_nil
  pool := by rw [h.interner]
  next := Nat.le_of_eq (by rw [h.interner])

theorem Grown.refl (c : Collector) : Grown c c [] [] := .of_unmoved (.refl c)

theorem Grown.trans (h : Grown c c' es made) (h' : Grown c' c'' es' made') :
    Grown c c'' (es ++ es') (made' ++ made) where
  events := by rw [h'.events, h.events, List.append_assoc]
  frees b n hm := (List.mem_append.1 hm).elim (h.frees b n) (h'.frees b n)
  reallocs b m n hm := (List.mem_append.1 hm).elim (h.reallocs b m n) (h'.reallocs b m n)
  total := by
    rw [h'.total, h.total, charges_append, bytesOf_append, lengths_append]
    omega
  strings := by rw [h'.strings, h.strings, List.append_assoc]
  fresh s hm := by
    rcases List.mem_append.1 hm with hm | hm
    · obtain ⟨hshort, hpool, hnext⟩ := h'.fresh s hm
      exact ⟨hshort, hpool.trans h.pool, Nat.le_trans h.next hnext⟩
    · exact h.fresh s hm
  pool := h'.pool.trans h.pool
  next := Nat.le_trans h.next h'.next

theorem grown_barrier (c : Collector) (owner : Owner) (v : Value) :
    Grown c (c.barrier owner v) [.barrier owner v] [] :=
  .of_called (c.called_barrier owner v) rfl nofun nofun

theorem grown_alloc {b : Block} {n : Nat} (h : Called c c' (.alloc b n) (b.bytes n)) :
    Grown c c' [.alloc b n] [] :=
  .of_called h rfl nofun nofun

section String

variable {n : Nat}

/-- Only long strings are charged for by themselves. -/
theorem charges_string :
    charges [.string n] = if n ≤ Str.shortLimit then [] else [(.stringBytes, n)] := by
  rw [charges, List.filterMap_cons, Event.charge?]
  split_ifs <;> rfl

theorem Grown.of_string (he : c'.events = c.events.push (.string n))
    (ht : c'.total = c.total + bytesOf (charges [.string n]) + lengths made)
    (hs : c'.interner.strings = made ++ c.interner.strings)
    (hmade : ∀ s ∈ made, s.isShort = true ∧ c.interner.Unmade s)
    (hp : c'.interner.pool = c.interner.pool) (hn : c.interner.next ≤ c'.interner.next) :
    Grown c c' [.string n] made where
  events := by
    rw [he]
    exact Array.toList_push
  frees _ _ h := by cases List.mem_singleton.1 h
  reallocs _ _ _ h := by cases List.mem_singleton.1 h
  total := ht
  strings := hs
  fresh := hmade
  pool := hp
  next := hn

/-- A string costs its bytes when it is made. If it is short it is interned then; a long one counts
as a charge. -/
theorem grown_createString (c : Collector) (bytes : List UInt8) :
    ∃ made, Grown c (c.createString bytes).2
      (if (c.createString bytes).1.isSome then [.string bytes.length] else []) made := by
  rcases c.createString_cases bytes with
    ⟨t, c', hc, hfind, h⟩ | ⟨t, c', hc, hevents, htotal, hmade, -⟩ | ⟨c', hc, h, -⟩ <;> rw [hc]
  · have hbytes : bytesOf (charges [.string bytes.length]) = 0 := by
      rw [charges_string, if_pos (Interner.length_le_of_find? hfind)]
      rfl
    exact ⟨[], .of_called h hbytes nofun nofun⟩
  · by_cases hlength : bytes.length ≤ Str.shortLimit
    · rw [if_pos hlength, Prod.ext_iff] at hmade
      obtain ⟨(ht : t = _), (hi : c'.interner = _)⟩ := hmade
      have hshort : t.isShort = true := by rw [ht]; exact decide_eq_true hlength
      refine ⟨[t], .of_string hevents ?_ ?_ ?_ ?_ ?_⟩
      · have hmemory : Block.stringBytes.bytes bytes.length = lengths [t] := by
          rw [ht]
          exact Str.memory_of_isShort (ht ▸ hshort)
        rw [charges_string, if_pos hlength, htotal, hmemory]
        exact congrArg (· + _) (Int.add_zero _).symm
      · rw [hi, ht, Interner.strings_add]
        rfl
      · intro s hs
        rw [List.mem_singleton.1 hs]
        exact ⟨hshort, by rw [ht]; exact ⟨rfl, Nat.le_refl _⟩⟩
      · rw [hi]
        rfl
      · rw [hi]
        exact Nat.le_succ _
    · rw [if_neg hlength, Prod.ext_iff] at hmade
      obtain ⟨-, (hi : c'.interner = _)⟩ := hmade
      refine ⟨[], .of_string hevents ?_ ?_ (fun _ h => absurd h List.not_mem_nil) ?_ ?_⟩
      · rw [charges_string, if_neg hlength, htotal]
        exact (Int.add_zero _).symm
      · rw [hi]
        rfl
      · rw [hi]
        rfl
      · rw [hi]
        exact Nat.le_succ _
  · exact ⟨[], .of_unmoved h⟩

end String

section Free

variable (bs : List (Block × Nat))

def freeAll (c : Collector) (bs : List (Block × Nat)) : Collector :=
  bs.foldl (fun c b => c.free b.1 b.2) c

theorem events_freeAll (c : Collector) :
    (c.freeAll bs).events.toList = c.events.toList ++ LuaData.frees bs := by
  induction bs generalizing c with
  | nil => exact (List.append_nil _).symm
  | cons b bs ih =>
    have hfree : (c.free b.1 b.2).events.toList = c.events.toList ++ [.free b.1 b.2] :=
      Array.toList_push
    rw [freeAll, List.foldl_cons, ← freeAll, ih, hfree, List.append_assoc]
    rfl

theorem total_freeAll (c : Collector) : (c.freeAll bs).total = c.total - bytesOf bs := by
  induction bs generalizing c with
  | nil => exact (Int.sub_zero _).symm
  | cons b bs ih =>
    have hfree : (c.free b.1 b.2).total = c.total - b.1.bytes b.2 := rfl
    rw [freeAll, List.foldl_cons, ← freeAll, ih, hfree, bytesOf, bytesOf, total_cons]
    omega

theorem interner_freeAll (c : Collector) : (c.freeAll bs).interner = c.interner := by
  induction bs generalizing c with
  | nil => rfl
  | cons b bs ih => exact ih _

end Free

/-- After the calls `es`, which give nothing back themselves, the blocks `bs` were freed, and
nothing is left but the short strings `made` that were interned on the way. Once nobody holds these,
a sweep comes to the same as if the calls had not been. -/
structure Balanced (c c' : Collector) (es : List Event) (bs : List (Block × Nat))
    (made : List Str) : Prop where
  events : c'.events.toList = c.events.toList ++ es ++ LuaData.frees bs
  frees : ∀ b n, .free b n ∉ es
  reallocs : ∀ b m n, .realloc b m n ∉ es
  strings : c'.interner.strings = made ++ c.interner.strings
  fresh : ∀ s ∈ made, s.isShort = true ∧ c.interner.Unmade s
  total : c'.total = c.total + lengths made
  sweep : ∀ held : Str → Bool, (∀ s ∈ made, held s = false) →
    (c'.sweep held).total = (c.sweep held).total ∧
      (c'.sweep held).interner.strings = (c.sweep held).interner.strings

/-- Strings that nobody holds do not matter to a sweep. -/
theorem sweep_of_unheld (hs : c'.interner.strings = made ++ c.interner.strings)
    (ht : c'.total = c.total + lengths made) {held : Str → Bool}
    (hheld : ∀ s ∈ made, held s = false) :
    (c'.sweep held).total = (c.sweep held).total ∧
      (c'.sweep held).interner.strings = (c.sweep held).interner.strings := by
  have hnone : made.filter held = [] := by
    rw [List.filter_eq_nil_iff]
    intro s hs
    rw [hheld s hs]
    exact Bool.false_ne_true
  have hall : (made.filter fun s => !held s) = made := by
    rw [List.filter_eq_self]
    intro s hs
    rw [hheld s hs]
    rfl
  constructor
  · change c'.total - c'.interner.unheldBytes held = c.total - c.interner.unheldBytes held
    rw [Interner.unheldBytes_eq, Interner.unheldBytes_eq, hs, List.filter_append, hall,
      lengths_append, ht]
    omega
  · change (c'.interner.sweep held).strings = (c.interner.sweep held).strings
    rw [Interner.strings_sweep, Interner.strings_sweep, hs, List.filter_append, hnone,
      List.nil_append]

/-- It suffices that what was charged for is freed, in whatever order. -/
theorem Grown.balanced (h : Grown c c' es made) {bs : List (Block × Nat)}
    (hbs : bs.Perm (charges es)) : Balanced c (c'.freeAll bs) es bs made := by
  have hs : (c'.freeAll bs).interner.strings = made ++ c.interner.strings := by
    rw [interner_freeAll, h.strings]
  have ht : (c'.freeAll bs).total = c.total + lengths made := by
    rw [total_freeAll, bytesOf_eq_of_perm hbs, h.total]
    omega
  refine ⟨?_, h.frees, h.reallocs, hs, h.fresh, ht, fun held hheld => sweep_of_unheld hs ht hheld⟩
  rw [events_freeAll, h.events]

end Collector

namespace Chunk

open Collector

def Request.charge? : Request → Option (Block × Nat)
  | .block b n => some (b, n)
  | .text bytes => if bytes.length ≤ Str.shortLimit then none else some (.stringBytes, bytes.length)
  | .note _ => none

def chargesOf (rs : List Request) : List (Block × Nat) := rs.filterMap Request.charge?

namespace Serving

variable {s s' s'' : Serving} {es es' : List Event}

theorem release_eq (s : Serving) : s.release = s.collector.freeAll s.charged := rfl

/-- Between `s` and `s'`, exactly what calls were charged for was added to the charges. -/
def Accounts (s s' : Serving) (es : List Event) : Prop :=
  (∃ made, Grown s.collector s'.collector es made) ∧
    s'.charged = (charges es).reverse ++ s.charged

theorem Accounts.refl (s : Serving) : Accounts s s [] := ⟨⟨[], .refl _⟩, rfl⟩

theorem Accounts.trans (h : Accounts s s' es) (h' : Accounts s' s'' es') :
    Accounts s s'' (es ++ es') := by
  obtain ⟨⟨made, hgrown⟩, hcharged⟩ := h
  obtain ⟨⟨made', hgrown'⟩, hcharged'⟩ := h'
  refine ⟨⟨_, hgrown.trans hgrown'⟩, ?_⟩
  rw [hcharged', hcharged, charges_append, List.reverse_append, List.append_assoc]

theorem accounts_serve (s : Serving) (r : Request) : ∃ es, Accounts s (s.serve r).2 es ∧
    ((s.serve r).1 = true → charges es = r.charge?.toList) := by
  cases r with
  | block b n =>
    rcases s.collector.alloc_cases b n with ⟨c, hc, h⟩ | ⟨c, hc, h⟩ <;> rw [serve, hc]
    · exact ⟨_, ⟨⟨_, grown_alloc h⟩, rfl⟩, fun _ => rfl⟩
    · exact ⟨_, ⟨⟨_, .of_unmoved h⟩, rfl⟩, fun h => by cases h⟩
  | text bytes =>
    obtain ⟨made, hgrown⟩ := s.collector.grown_createString bytes
    rcases hc : s.collector.createString bytes with ⟨t?, c⟩
    rw [hc] at hgrown
    rw [serve, hc]
    cases t? with
    | some t =>
      have hboth := hgrown.trans (c.grown_barrier .prototype (.string t))
      have hcharges : charges ([.string bytes.length] ++ [.barrier .prototype (.string t)]) =
          charges [.string bytes.length] := (charges_append _ _).trans (List.append_nil _)
      have hlength : t.length = bytes.length := congrArg List.length (bytes_of_createString hc)
      refine ⟨_, ⟨⟨_, hboth⟩, ?_⟩, fun _ => ?_⟩
      · rw [Option.isSome_some, if_pos rfl, hcharges, charges_string]
        by_cases hle : bytes.length ≤ Str.shortLimit <;> simp [Str.isShort, hlength, hle]
      · rw [Option.isSome_some, if_pos rfl, hcharges, charges_string]
        by_cases hle : bytes.length ≤ Str.shortLimit <;> simp [Request.charge?, hle]
    | none => exact ⟨_, ⟨⟨_, hgrown⟩, rfl⟩, fun h => by cases h⟩
  | note m => exact ⟨[], ⟨⟨[], .of_unmoved (s.collector.unmoved_log _ _)⟩, rfl⟩, fun _ => rfl⟩

/-- All that is granted on the way is charged, also if a request is refused in the end. -/
theorem accounts_serveAll (s : Serving) (rs : List Request) :
    ∃ es, Accounts s (s.serveAll rs).2 es ∧
      ((s.serveAll rs).1 = true → charges es = chargesOf rs) := by
  induction rs generalizing s with
  | nil => exact ⟨[], .refl s, fun _ => rfl⟩
  | cons r rs ih =>
    obtain ⟨es, haccounts, hcharges⟩ := s.accounts_serve r
    rcases hs : s.serve r with ⟨granted, s₁⟩
    rw [hs] at haccounts hcharges
    rw [serveAll, hs]
    cases granted with
    | false => exact ⟨es, haccounts, fun h => by cases h⟩
    | true =>
      obtain ⟨es', haccounts', hcharges'⟩ := ih s₁
      refine ⟨es ++ es', haccounts.trans haccounts', fun hgranted => ?_⟩
      rw [charges_append, hcharges rfl, hcharges' hgranted, chargesOf, chargesOf,
        List.filterMap_cons]
      cases r.charge? <;> rfl

end Serving

def handles : Except LoadError Closure → List Str
  | .ok f => f.prototype.strings
  | .error _ => []

section Load

theorem eq_error_of_isSome {ε α : Type} {x : Except ε α} (hx : x.toOption.isSome = false) :
    ∃ e, x = .error e := by
  cases x with
  | ok a => cases hx
  | error e => exact ⟨e, rfl⟩

variable {c c' : Collector} {name : String} {bytes : List UInt8}

/-- A load that fails has served some requests and released what it was charged. -/
theorem release_of_load_error {e : LoadError} (h : load c name bytes = (.error e, c')) :
    ∃ rs, c' = (Serving.serveAll ⟨c, [], #[]⟩ rs).2.release := by
  unfold load loadNamed at h
  dsimp only at h
  split at h
  · rename_i s hserve
    cases h
    exact ⟨_, by rw [hserve]⟩
  · rename_i s hserve
    split at h
    · cases h
      exact ⟨_, by rw [hserve]⟩
    · cases h

/-- If a load fails, for whatever reason and at whatever depth, exactly what it was charged for in
the course of the calls `es` is freed, each block and long string once and the latest first. What is
left are the short strings that it interned. As a failed load hands out no string, nobody holds
these, if strings are held only by those who held them before or got them from the load. -/
theorem balanced_of_load_error {e : LoadError} (h : load c name bytes = (.error e, c')) :
    ∃ es made, Balanced c c' es (charges es).reverse made ∧
      ∀ held : Str → Bool,
        (∀ s, held s = true → ¬c.interner.Unmade s ∨ s ∈ handles (load c name bytes).1) →
        ∀ s ∈ made, held s = false := by
  obtain ⟨rs, rfl⟩ := release_of_load_error h
  obtain ⟨es, ⟨⟨made, hgrown⟩, hcharged⟩, -⟩ := Serving.accounts_serveAll ⟨c, [], #[]⟩ rs
  rw [List.append_nil] at hcharged
  rw [Serving.release_eq, hcharged]
  refine ⟨es, made, hgrown.balanced (charges es).reverse_perm, fun held hheld s hs => ?_⟩
  rw [h] at hheld
  rw [Bool.eq_false_iff]
  intro htrue
  rcases hheld s htrue with hold | hnew
  · exact hold (hgrown.fresh s hs).2
  · exact absurd hnew List.not_mem_nil

/-- A function that announces nine constants and is cut off after one of 41 bytes and one of 2. -/
def cut : List UInt8 :=
  header ++ [0, 0, 0, 0, 0, 0, 0, 0, 0, 0, 0, 0, 0, 0, 0, 9, 0, 0, 0] ++
    ([4, 42, 0, 0, 0, 0, 0, 0, 0] ++ List.replicate 41 0x6b ++ [0]) ++
    [4, 3, 0, 0, 0, 0, 0, 0, 0, 0x68, 0x69, 0]

theorem balanced_of_load_error_cut : ∃ e c',
    load (.new 1 Collector.unlimited) "=cut" cut = (.error e, c') ∧ c'.total = 2 ∧
      ∃ es made, Balanced (.new 1 Collector.unlimited) c' es (charges es).reverse made := by
  obtain ⟨e, he⟩ : ∃ e, (load (.new 1 Collector.unlimited) "=cut" cut).1 = .error e :=
    eq_error_of_isSome (by decide +kernel)
  have h : load (.new 1 Collector.unlimited) "=cut" cut =
      (.error e, (load (.new 1 Collector.unlimited) "=cut" cut).2) := by rw [← he]
  obtain ⟨es, made, hbalanced, -⟩ := balanced_of_load_error h
  exact ⟨e, _, h, by decide +kernel, es, made, hbalanced⟩

end Load

end Chunk

end LuaData
