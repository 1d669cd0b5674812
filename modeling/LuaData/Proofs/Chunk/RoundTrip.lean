import LuaData.Chunk.Load
import LuaData.Proofs.Collector
import LuaData.Proofs.Chunk.Records
import LuaData.Proofs.Chunk.Written

namespace LuaData

theorem Interner.bytes_of_find? {i : Interner} {bytes : List UInt8} {t : Str}
    (h : i.find? bytes = some t) : t.bytes = bytes := by
  unfold find? at h
  split at h
  · simpa using List.find?_some h
  · cases h

theorem Collector.bytes_of_createString {c c' : Collector} {bytes : List UInt8} {t : Str}
    (h : c.createString bytes = (some t, c')) : t.bytes = bytes := by
  unfold createString at h
  split at h
  · rename_i s hs
    cases h
    exact Interner.bytes_of_find? hs
  · split at h
    · cases h
    · split at h
      rename_i hmade
      cases h
      split at hmade <;> cases hmade <;> rfl

namespace Chunk

namespace Serving

variable {s s' : Serving}

theorem serve_of_hasRoom {r : Request} {n : Nat} (h : s.collector.HasRoom (r.cost + n)) :
    ∃ s', s.serve r = (true, s') ∧ s'.collector.HasRoom n := by
  cases r with
  | block b count =>
    have hblock : s.collector.HasRoom (b.bytes count + n) := h
    obtain ⟨c', hc, hroom⟩ := hblock.alloc
    rw [serve, hc]
    exact ⟨_, rfl, hroom⟩
  | text bytes =>
    have hbytes : s.collector.HasRoom (Block.stringBytes.bytes bytes.length + n) := h
    obtain ⟨t, c', hc, hroom⟩ := hbytes.createString
    rw [serve, hc]
    exact ⟨_, rfl, hroom.willing, hroom.enough⟩
  | note m =>
    have hroom := h.mono (Nat.le_add_left n _)
    exact ⟨_, rfl, hroom.willing, hroom.enough⟩

/-- Requests are granted if there is room for all of them. -/
theorem serveAll_of_hasRoom {rs : List Request} (h : s.collector.HasRoom (cost rs)) :
    (s.serveAll rs).1 = true := by
  induction rs generalizing s with
  | nil => rfl
  | cons r rs ih =>
    rw [cost, total_cons, ← cost] at h
    obtain ⟨s', hs, hroom⟩ := serve_of_hasRoom h
    rw [serveAll, hs]
    exact ih hroom

theorem serveAll_ne_refused {rs : List Request} (h : s.collector.HasRoom (cost rs)) :
    s.serveAll rs ≠ (false, s') := by
  intro hrefused
  have hgranted := serveAll_of_hasRoom h
  rw [hrefused] at hgranted
  cases hgranted

def contents (s : Serving) : List (List UInt8) := s.strings.toList.map Str.bytes

theorem contents_serve {r : Request} (h : s.serve r = (true, s')) :
    s'.contents = s.contents ++ texts [r] := by
  cases r with
  | block b n =>
    rw [serve] at h
    split at h <;> cases h
    exact (List.append_nil _).symm
  | text bytes =>
    rw [serve] at h
    split at h
    · rename_i t c' hc
      cases h
      simp [contents, texts, Collector.bytes_of_createString hc]
    · cases h
  | note m =>
    cases h
    exact (List.append_nil _).symm

/-- One string is made for every request of one, in their order. -/
theorem contents_serveAll {rs : List Request} (h : s.serveAll rs = (true, s')) :
    s'.contents = s.contents ++ texts rs := by
  induction rs generalizing s with
  | nil =>
    cases h
    exact (List.append_nil _).symm
  | cons r rs ih =>
    rcases hs : s.serve r with ⟨granted, s₁⟩
    rw [serveAll, hs] at h
    cases granted with
    | false => cases h
    | true => rw [ih h, contents_serve hs, List.append_assoc, ← texts_append, List.singleton_append]

/-- The strings made are those that were asked for. -/
theorem resolves_serveAll {c : Collector} {rs : List Request} {s : Serving}
    (h : Serving.serveAll ⟨c, [], #[]⟩ rs = (true, s)) :
    Resolves (fun t => (s.strings.getD t.serial t).anonymous) rs := by
  intro i bytes hi
  have hcontents : s.contents = texts rs := contents_serveAll h
  -- the serial of a provisional string is the place of its request
  rw [← hcontents, contents, List.getElem?_map, Option.map_eq_some_iff] at hi
  obtain ⟨t, ht, rfl⟩ := hi
  rw [Array.getElem?_toList] at ht
  change (s.strings.getD i _).anonymous = _
  rw [Array.getD_eq_getD_getElem?, ht]
  rfl

end Serving

section Chunk

variable {p : Prototype} {bytes : List UInt8} {fault : Fault} (name : String)

/-- A chunk is read as the tree that it stands for. -/
theorem reads_form (h : Form.chunk p bytes) (hp : p.Shallow (maxDepth + 1))
    (hfault : p.firstFault? = none) :
    Reads (Reader.chunk name) bytes p.memory fun g q => q.mapStr g = p := by
  obtain ⟨record, hrecord, rfl⟩ := h
  apply (reads_bytes header rfl).bind_free
  intro h hh
  subst hh
  exact (reads_function hrecord hp hfault).imp fun _ _ hq _ => hq

theorem fails_form (h : Form.chunk p bytes) (hp : p.Shallow (maxDepth + 1))
    (hfault : p.firstFault? = some fault) :
    Fails (Reader.chunk name) bytes p.memory (.invalidBytecode fault) := by
  obtain ⟨record, hrecord, rfl⟩ := h
  apply (reads_bytes header rfl).bind_free_fails
  intro h hh
  subst hh
  exact fails_function hrecord hp hfault

end Chunk

section Encode

variable {p : Prototype} {fault : Fault} (name : String) (strip : Bool)

theorem chunk_encode (hp : p.Expressible (maxDepth + 1)) :
    Form.chunk ((p.kept strip).mapStr Str.anonymous) (p.encode strip) :=
  ⟨_, function_write hp strip, rfl⟩

theorem reads_chunk (hp : p.Expressible (maxDepth + 1)) (hfault : p.firstFault? = none) :
    Reads (Reader.chunk name) (p.encode strip) p.memory fun g q =>
      q.mapStr g = (p.kept strip).mapStr Str.anonymous := by
  rw [← Prototype.firstFault?_mapStr_kept strip] at hfault
  exact (reads_form name (chunk_encode strip hp) (hp.shallow.mapStr_kept strip) hfault).mono
    (Prototype.memory_mapStr_kept_le strip p)

theorem fails_chunk (hp : p.Expressible (maxDepth + 1)) (hfault : p.firstFault? = some fault) :
    Fails (Reader.chunk name) (p.encode strip) p.memory (.invalidBytecode fault) := by
  rw [← Prototype.firstFault?_mapStr_kept strip] at hfault
  exact (fails_form name (chunk_encode strip hp) (hp.shallow.mapStr_kept strip) hfault).mono
    (Prototype.memory_mapStr_kept_le strip p)

end Encode

section Load

variable {c : Collector} {name : String} {bytes : List UInt8} {s : Scan} {e : Cause} {q : Prototype}

theorem loadNamed_ok (hscan : scan name bytes = .ok q s) :
    (loadNamed c name bytes).1 =
      match Serving.serveAll ⟨c, [], #[]⟩ s.requests.toList with
      | (false, _) => .error .outOfMemory
      | (true, t) => .ok (.ofPrototype (q.mapStr fun u => t.strings.getD u.serial u)) := by
  unfold loadNamed
  rw [hscan]
  dsimp only
  generalize Serving.serveAll ⟨c, [], #[]⟩ s.requests.toList = served
  obtain ⟨granted, t⟩ := served
  cases granted <;> rfl

theorem loadNamed_error (hscan : scan name bytes = .error e s) :
    (loadNamed c name bytes).1 =
      match Serving.serveAll ⟨c, [], #[]⟩ s.requests.toList with
      | (false, _) => .error .outOfMemory
      | (true, _) => .error (.rejected ⟨name, e⟩) := by
  unfold loadNamed
  rw [hscan]
  dsimp only
  generalize Serving.serveAll ⟨c, [], #[]⟩ s.requests.toList = served
  obtain ⟨granted, t⟩ := served
  cases granted <;> rfl

variable {n : Nat} {r : Prototype}

theorem loadNamed_of_reads
    (hr : Reads (Reader.chunk name) bytes n fun g q => q.mapStr g = r) (c : Collector) :
    (c.HasRoom n → (loadNamed c name bytes).1 ≠ .error .outOfMemory) ∧
    ((loadNamed c name bytes).1 ≠ .error .outOfMemory →
      ∃ f, (loadNamed c name bytes).1 = .ok f ∧ f.prototype.mapStr Str.anonymous = r) := by
  obtain ⟨q, qs, hscan, hcost, hq⟩ := hr [] []
  rw [List.append_nil] at hscan
  have hrequests : (Scan.after ([] ++ qs) []).requests.toList = qs := rfl
  rw [loadNamed_ok hscan, hrequests]
  rcases hserve : Serving.serveAll ⟨c, [], #[]⟩ qs with ⟨granted, t⟩
  cases granted with
  | false =>
    exact ⟨fun hmem => absurd hserve (Serving.serveAll_ne_refused (hmem.mono hcost)),
      fun hne => absurd rfl hne⟩
  | true =>
    refine ⟨fun _ he => (by cases he), fun _ => ⟨_, rfl, ?_⟩⟩
    rw [Closure.ofPrototype, Prototype.mapStr_mapStr]
    exact hq _ (Serving.resolves_serveAll hserve)

theorem loadNamed_of_fails (hr : Fails (Reader.chunk name) bytes n e) (c : Collector) :
    (c.HasRoom n → (loadNamed c name bytes).1 ≠ .error .outOfMemory) ∧
    ((loadNamed c name bytes).1 ≠ .error .outOfMemory →
      (loadNamed c name bytes).1 = .error (.rejected ⟨name, e⟩)) := by
  obtain ⟨s, qs, hscan, hqs, hcost⟩ := hr [] []
  rw [List.append_nil] at hscan
  rw [loadNamed_error hscan, hqs, List.nil_append]
  rcases hserve : Serving.serveAll ⟨c, [], #[]⟩ qs with ⟨granted, t⟩
  cases granted with
  | false =>
    exact ⟨fun hmem => absurd hserve (Serving.serveAll_ne_refused (hmem.mono hcost)),
      fun hne => absurd rfl hne⟩
  | true => exact ⟨fun _ he => (by cases he), fun _ => rfl⟩

end Load

/-- A tree that chunks can express is read back from its chunk as what is kept of it, or rejected
with its first fault, unless the collector refuses memory; it does not if it has room for the tree.
All bytes of the chunk are taken and none of what follows. -/
theorem load_encode {p : Prototype} (hp : p.Expressible (maxDepth + 1)) (strip : Bool)
    (c : Collector) (name : String) :
    (c.HasRoom p.memory → (load c name (p.encode strip)).1 ≠ .error .outOfMemory) ∧
    ((load c name (p.encode strip)).1 ≠ .error .outOfMemory →
      ((∀ d q, Prototype.Occurs q d p → q.fault? = none) →
        ∃ f, (load c name (p.encode strip)).1 = .ok f ∧
          f.prototype.mapStr Str.anonymous = (p.kept strip).mapStr Str.anonymous) ∧
      ∀ fault, p.firstFault? = some fault → (load c name (p.encode strip)).1 =
        .error (.rejected ⟨displayName name, .invalidBytecode fault⟩)) ∧
    ((∀ d q, Prototype.Occurs q d p → q.fault? = none) → ∀ rest, ∃ q s,
      scan (displayName name) (p.encode strip ++ rest) = .ok q s ∧ s.rest = rest) := by
  unfold load
  rw [← Prototype.firstFault?_eq_none_iff]
  cases hfault : p.firstFault? with
  | none =>
    have hr := reads_chunk (displayName name) strip hp hfault
    obtain ⟨hmem, hload⟩ := loadNamed_of_reads hr c
    refine ⟨hmem, fun hne => ⟨fun _ => hload hne, fun fault h => by cases h⟩, fun _ rest => ?_⟩
    obtain ⟨q, qs, hscan, -⟩ := hr [] rest
    exact ⟨q, _, hscan, rfl⟩
  | some fault =>
    have hr := fails_chunk (displayName name) strip hp hfault
    obtain ⟨hmem, hload⟩ := loadNamed_of_fails hr c
    refine ⟨hmem, fun hne => ⟨fun h => (by cases h), fun fault h => ?_⟩, fun h => (by cases h)⟩
    cases h
    exact hload hne

/-- A function with one nested in it that is a single instruction. Chunks do not keep all of it. -/
def sample (i : Instruction) : Prototype :=
  .mk
    { lineDefined := -4, lastLineDefined := 9, paramCount := 0, isVararg := true, maxStack := 2
      code := [⟨0x0080001f⟩]
      constants := [.string (.ofContent [0x68, 0x69]), .native 7, .number ⟨0x7ff8000000000001⟩]
      upvalues := [⟨true, 0, some (.ofContent [0x5f])⟩]
      source := some (.ofContent [])
      lines := [-1]
      locals := [⟨none, -2, 1⟩] }
    [.mk
      { lineDefined := 5, lastLineDefined := 6, paramCount := 1, isVararg := false, maxStack := 2
        code := [i]
        constants := [.nil, .boolean true]
        upvalues := []
        source := none
        lines := []
        locals := [] }
      []]

theorem expressible_sample (i : Instruction) : (sample i).Expressible (maxDepth + 1) := by
  refine Prototype.expressible_mk ?_ (show 1 ≤ maxCount by decide) fun q hq => ?_
  · constructor <;> decide
  · rw [List.mem_singleton.1 hq]
    refine Prototype.expressible_mk ?_ (Nat.zero_le _) fun _ h => absurd h List.not_mem_nil
    exact ⟨show 1 ≤ maxCount by decide, show 2 ≤ maxCount by decide, Nat.zero_le _, Nat.zero_le _,
      Nat.zero_le _, fun _ h => absurd h List.not_mem_nil⟩

theorem load_encode_sample :
    (∃ f, (load (.new 1 Collector.unlimited) "@sample"
        ((sample ⟨0x0080001f⟩).encode true)).1 = .ok f ∧
      f.prototype.mapStr Str.anonymous =
        ((sample ⟨0x0080001f⟩).kept true).mapStr Str.anonymous) ∧
    (load (.new 1 Collector.unlimited) "@sample" ((sample ⟨0x3f⟩).encode false)).1 =
      .error (.rejected ⟨"sample", .invalidBytecode ⟨0, none, .unknownOpcode⟩⟩) := by
  constructor
  · obtain ⟨hmem, hload, -⟩ := load_encode (expressible_sample ⟨0x0080001f⟩) true
      (.new 1 Collector.unlimited) "@sample"
    exact (hload (hmem ⟨fun _ => rfl, by decide⟩)).1
      (Prototype.firstFault?_eq_none_iff.1 (by decide))
  · obtain ⟨hmem, hload, -⟩ := load_encode (expressible_sample ⟨0x3f⟩) false
      (.new 1 Collector.unlimited) "@sample"
    exact (hload (hmem ⟨fun _ => rfl, by decide⟩)).2 _ (by decide)

end Chunk

end LuaData
