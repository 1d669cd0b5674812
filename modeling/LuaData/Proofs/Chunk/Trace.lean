import LuaData.Proofs.Chunk.Charges
import LuaData.Proofs.Chunk.Requests
import Mathlib.Algebra.Order.Group.Multiset
import Mathlib.Tactic.Abel

namespace LuaData

open Chunk

def Chunk.Need.events : Need → List Event
  | .block b n => [.alloc b n]
  | .text s => [.string s.length, .barrier .prototype (.string s)]

def Prototype.trace (p : Prototype) : List Event := p.needs.flatMap Need.events

def Event.barred? : Event → Option (Owner × Value)
  | .barrier owner v => some (owner, v)
  | _ => none

def Chunk.Need.string? : Need → Option Str
  | .block _ _ => none
  | .text s => some s

theorem Chunk.filterMap_barred? (ns : List Need) :
    (ns.flatMap Need.events).filterMap Event.barred? =
      (ns.filterMap Need.string?).map fun s => (.prototype, .string s) := by
  induction ns with
  | nil => rfl
  | cons n ns ih =>
    rw [List.flatMap_cons, List.filterMap_append, ih]
    cases n <;> rfl

theorem Prototype.strings_mk (body : Body) (children : List Prototype) :
    (mk body children).strings = body.strings ++ children.flatMap strings := by
  rw [strings, flatten, flattenAll_eq_flatMap, List.flatMap_cons, List.flatMap_assoc]
  rfl

/-- The strings that are needed are those that the functions hold. -/
theorem Prototype.perm_strings (p : Prototype) :
    (p.needs.filterMap Need.string?).Perm p.strings := by
  have htexts (ss : List Str) : (ss.map Need.text).filterMap Need.string? = ss := by
    rw [List.filterMap_map]
    exact List.filterMap_some
  induction p with
  | mk body children ih =>
    have hchildren : ((children.flatMap needs).filterMap Need.string?).Perm
        (children.flatMap strings) := by
      rw [List.filterMap_flatMap]
      exact List.Perm.flatMap_left _ ih
    have hneeds : (mk body children).needs.filterMap Need.string? =
        body.constants.filterMap Value.string? ++
          ((children.flatMap needs).filterMap Need.string? ++ (body.source.toList ++
            (body.locals.filterMap LocalVar.name ++ body.upvalues.filterMap Upvalue.name))) := by
      simp only [needs_mk, Body.headNeeds, Body.restNeeds, List.filterMap_append,
        List.filterMap_cons, Need.string?, htexts, List.append_assoc, List.cons_append]
    rw [hneeds, strings_mk, Body.strings_eq]
    refine ((hchildren.append_right _).append_left _).trans ?_
    rw [← Multiset.coe_eq_coe]
    simp only [← Multiset.coe_add]
    abel

namespace Chunk

namespace Serving

variable {s s' : Serving} {g : Str → Str} {rs rs' : List Request}

theorem serveAll_append (s : Serving) (rs rs' : List Request) :
    s.serveAll (rs ++ rs') =
      if (s.serveAll rs).1 then (s.serveAll rs).2.serveAll rs' else s.serveAll rs := by
  induction rs generalizing s with
  | nil => rfl
  | cons r rs ih =>
    rcases hs : s.serve r with ⟨granted, s₁⟩
    rw [List.cons_append, serveAll, serveAll, hs]
    cases granted with
    | false => rfl
    | true => exact ih s₁

/-- Whether the strings that have been made are where `g` finds them. -/
def Placed (s : Serving) (g : Str → Str) : Prop :=
  ∀ i t, s.strings[i]? = some t → ∀ content, g (Reader.provisional i content) = t

theorem placed_resolve (s : Serving) : s.Placed s.resolve := by
  intro i t ht content
  change s.strings.getD i _ = t
  rw [Array.getD_eq_getD_getElem?, ht]
  rfl

theorem Placed.of_push {u : Str} {c : Collector} {charged : List (Block × Nat)}
    (h : (Serving.mk c charged (s.strings.push u)).Placed g) :
    s.Placed g ∧ ∀ content, g (Reader.provisional s.strings.size content) = u := by
  refine ⟨fun i t ht => h i t ?_, h s.strings.size u Array.getElem?_push_size⟩
  obtain ⟨hi, -⟩ := Array.getElem?_eq_some_iff.1 ht
  change (s.strings.push u)[i]? = some t
  rw [Array.getElem?_push, if_neg (Nat.ne_of_lt hi), ht]

theorem events_of_createString {c c' : Collector} {bytes : List UInt8} {t : Str}
    (h : c.createString bytes = (some t, c')) :
    c'.events = c.events.push (.string bytes.length) := by
  rcases c.createString_cases bytes with
    ⟨u, c₁, hc, -, hcalled⟩ | ⟨u, c₁, hc, hevents, -⟩ | ⟨c₁, hc, -⟩ <;> rw [hc] at h <;> cases h
  · exact hcalled.events
  · exact hevents

/-- A request that is served is reported, and nothing else is. -/
theorem events_serve {r : Request} (h : s.serve r = (true, s')) (hs' : s'.Placed g) :
    s.Placed g ∧ s'.strings.size = s.strings.size + (texts [r]).length ∧
      s'.collector.events.toList = s.collector.events.toList ++
        ((numbered s.strings.size [r]).map (Need.mapStr g)).flatMap Need.events := by
  cases r with
  | block b n =>
    rcases s.collector.alloc_cases b n with ⟨c, hc, hcalled⟩ | ⟨c, hc, -⟩ <;>
      rw [serve, hc] at h <;> cases h
    exact ⟨hs', rfl, by rw [hcalled.events, Array.toList_push]; rfl⟩
  | text bytes =>
    rcases hc : s.collector.createString bytes with ⟨_ | u, c⟩ <;> rw [serve, hc] at h <;> cases h
    obtain ⟨hs, hu⟩ := hs'.of_push
    have hlength : u.length = bytes.length :=
      congrArg List.length (Collector.bytes_of_createString hc)
    have hbarrier : (c.barrier .prototype (.string u)).events =
        c.events.push (.barrier .prototype (.string u)) := rfl
    refine ⟨hs, Array.size_push _, ?_⟩
    rw [hbarrier, Array.toList_push, events_of_createString hc, Array.toList_push,
      List.append_assoc, numbered, numbered, List.map_singleton, Need.mapStr, hu,
      List.flatMap_singleton, Need.events, hlength]
    rfl
  | note m =>
    cases h
    exact ⟨hs', rfl, (List.append_nil _).symm⟩

/-- All requests that are served are reported in their order. -/
theorem events_serveAll (h : s.serveAll rs = (true, s')) (hs' : s'.Placed g) :
    s.Placed g ∧ s'.collector.events.toList = s.collector.events.toList ++
      ((numbered s.strings.size rs).map (Need.mapStr g)).flatMap Need.events := by
  induction rs generalizing s with
  | nil =>
    cases h
    exact ⟨hs', (List.append_nil _).symm⟩
  | cons r rs ih =>
    rcases hs : s.serve r with ⟨granted, s₁⟩
    rw [serveAll, hs] at h
    cases granted with
    | false => cases h
    | true =>
      obtain ⟨hs₁, hrest⟩ := ih h
      obtain ⟨hs, hsize, hfirst⟩ := events_serve hs hs₁
      refine ⟨hs, ?_⟩
      rw [hrest, hfirst, hsize, List.append_assoc, ← List.flatMap_append, ← List.map_append,
        ← numbered_append, List.singleton_append]

theorem serveAll_of_append {t : Serving} (h : s.serveAll (rs ++ rs') = (true, t)) :
    ∃ s₁, s.serveAll rs = (true, s₁) ∧ s₁.serveAll rs' = (true, t) := by
  rw [serveAll_append] at h
  rcases hs : s.serveAll rs with ⟨_ | _, s₁⟩ <;> rw [hs] at h
  · cases h
  · exact ⟨s₁, rfl, h⟩

end Serving

section Load

variable {c c' : Collector} {name : String} {bytes : List UInt8} {f : Closure}

theorem load_of_scan_error {e : Cause} {s : Scan} {t : Serving}
    (hscan : scan (displayName name) bytes = .error e s)
    (hserve : Serving.serveAll ⟨c, [], #[]⟩ s.requests.toList = (true, t)) :
    load c name bytes = (.error (.rejected ⟨displayName name, e⟩), t.release) := by
  unfold load loadNamed
  simp only [hscan, hserve]

/-- Where the input ends within a step, reading has asked for what it asks for in front of it. -/
theorem scan_of_cut {q : Prototype} {s : Scan} {ms : List Move} {part : List UInt8}
    {ns : List Need} (hscan : scan name bytes = .ok q s)
    (hgoes : GoesBy (Reader.chunk name) [] q ms) (hbytes : bytes = taken ms ++ s.rest)
    (hcut : Cut ms part ns) : ∃ s', scan name part = .error .truncated s' ∧
      s'.requests.toList <+: s.requests.toList ∧ numbered 0 s'.requests.toList = ns := by
  obtain ⟨missing, -, hmissing⟩ := hcut.taken_eq
  obtain ⟨s', qs, htruncated, hqs, hns⟩ := hgoes.cut hcut
  rw [List.nil_append] at hqs
  have hmore := (steady_chunk name).truncated htruncated (missing ++ s.rest)
  have hwhole : part ++ (missing ++ s.rest) = bytes := by
    rw [hbytes, hmissing, List.append_assoc]
  have hmade : made (scan name (part ++ (missing ++ s.rest))) = s.requests.toList := by
    rw [hwhole, hscan]
    rfl
  exact ⟨s', htruncated, hmade ▸ hmore, hqs ▸ hns⟩

/-- A collector hears of a load that succeeds what the tree tells, record by record in the order of
reading. Every string that a function holds is reported by one barrier, and nothing else is. The
reports are made in due course: where the input ends, the collector has heard what is due in front
of the step within which it ends, and nothing more but of the blocks that are freed then. -/
theorem trace_of_load (h : load c name bytes = (.ok f, c')) :
    c'.events.toList = c.events.toList ++ f.prototype.trace ∧
    (f.prototype.trace.filterMap Event.barred?).Perm
      (f.prototype.strings.map fun s => (.prototype, .string s)) ∧
    ∃ ms rest, Course.chunk f.prototype ms ∧ bytes = taken ms ++ rest ∧
      ∀ n < (taken ms).length, ∃ ns c'' freed, Cut ms (bytes.take n) ns ∧
        load c name (bytes.take n) = (.error (.rejected ⟨displayName name, .truncated⟩), c'') ∧
          c''.events.toList = c.events.toList ++ ns.flatMap Need.events ++ frees freed := by
  obtain ⟨q, s, t, ms, hscan, hserve, hf, ⟨level, text, rfl⟩, hms, hgoes, hbytes, hneeds⟩ :=
    course_of_load h
  have hcourse := chunk_mapStr (keepsTexts_resolve hserve hneeds) hms
  rw [← hf] at hcourse
  have htaken : taken (ms.map (Move.mapStr t.resolve)) = taken ms := taken_map_mapStr ..
  refine ⟨?_, ?_, _, s.rest, hcourse, by rw [htaken, ← hbytes], fun n hn => ?_⟩
  · rw [Prototype.trace, ← chunk_needs hcourse, needs_map_mapStr, ← hneeds]
    exact (Serving.events_serveAll hserve t.placed_resolve).2
  · rw [Prototype.trace, filterMap_barred?]
    exact f.prototype.perm_strings.map _
  · rw [htaken] at hn
    have hpart : bytes.take n = (taken ms).take n := by
      rw [hbytes, List.take_append_of_le_length (Nat.le_of_lt hn)]
    have hmissing : (taken ms).drop n ≠ [] := mt List.drop_eq_nil_iff.1 (Nat.not_le_of_lt hn)
    obtain ⟨ns, hcut⟩ := exists_cut hmissing (List.take_append_drop n (taken ms)).symm
    rw [← hpart] at hcut
    obtain ⟨s', htruncated, ⟨qs, hqs⟩, hns⟩ := scan_of_cut hscan hgoes hbytes hcut
    -- all that has been asked for until then is granted, as it is on the whole input
    rw [← hqs] at hserve
    obtain ⟨t', hserve', hmore⟩ := Serving.serveAll_of_append hserve
    obtain ⟨hplaced, -⟩ := Serving.events_serveAll hmore t.placed_resolve
    obtain ⟨-, hevents⟩ := Serving.events_serveAll hserve' hplaced
    refine ⟨_, _, t'.charged, hcut.mapStr, load_of_scan_error htruncated hserve', ?_⟩
    rw [Serving.release_eq, Collector.events_freeAll, hevents, ← hns]
    rfl

end Load

theorem trace_of_load_sample : ∃ f c',
    load (.new 1 Collector.unlimited) "@sample" ((sample ⟨0x0080001f⟩).encode false) =
      (.ok f, c') ∧
    c'.events.toList = f.prototype.trace ∧
    (f.prototype.trace.filterMap Event.barred?).Perm
      (f.prototype.strings.map fun s => (.prototype, .string s)) ∧
    f.prototype.trace.length = 20 := by
  obtain ⟨f, hf⟩ : ∃ f, (load (.new 1 Collector.unlimited) "@sample"
      ((sample ⟨0x0080001f⟩).encode false)).1 = .ok f := eq_ok_of_isSome (by decide +kernel)
  have hlength : (load (.new 1 Collector.unlimited) "@sample"
      ((sample ⟨0x0080001f⟩).encode false)).1.toOption.map
        (fun f => f.prototype.trace.length) = some 20 := by decide +kernel
  rw [hf] at hlength
  have h : load (.new 1 Collector.unlimited) "@sample" ((sample ⟨0x0080001f⟩).encode false) =
      (.ok f, (load (.new 1 Collector.unlimited) "@sample"
        ((sample ⟨0x0080001f⟩).encode false)).2) := by rw [← hf]
  obtain ⟨hevents, hbarriers, -⟩ := trace_of_load h
  exact ⟨f, _, h, hevents, hbarriers, Option.some.inj hlength⟩

end Chunk

end LuaData
