import LuaData.Proofs.Chunk.Acceptance

namespace LuaData

open Chunk

def asked (ss : List Str) : List Request := ss.map fun s => .text s.bytes

def Body.headRequests (b : Body) : List Request :=
  .block .prototype 1 :: .block .code b.code.length :: .block .constants b.constants.length ::
    asked (b.constants.filterMap Value.string?)

def Body.restRequests (b : Body) : List Request :=
  .block .upvalues b.upvalues.length :: asked b.source.toList ++
    .block .lineInfo b.lines.length :: .block .locals b.locals.length ::
    asked (b.locals.filterMap LocalVar.name) ++ asked (b.upvalues.filterMap Upvalue.name)

namespace Prototype

mutual

/-- What is asked for when a prototype is read, in that order. -/
def requests : Prototype → List Request
  | mk body children =>
    body.headRequests ++ .block .children children.length :: requestsAll children ++
      body.restRequests

def requestsAll : List Prototype → List Request
  | [] => []
  | p :: ps => requests p ++ requestsAll ps

end

theorem requestsAll_eq_flatMap (ps : List Prototype) : requestsAll ps = ps.flatMap requests := by
  induction ps with
  | nil => rfl
  | cons p ps ih => rw [requestsAll, ih, List.flatMap_cons]

theorem requests_mk (body : Body) (children : List Prototype) : (mk body children).requests =
    body.headRequests ++ (.block .children children.length :: children.flatMap requests) ++
      body.restRequests := by
  rw [requests, requestsAll_eq_flatMap]

end Prototype

section MapStr

variable {α : Type} {f : Str → Str} (hf : ∀ s, (f s).bytes = s.bytes)

include hf

theorem asked_map (ss : List Str) : asked (ss.map f) = asked ss := by
  simp [asked, Function.comp_def, hf]

theorem Body.headRequests_mapStr (b : Body) : (b.mapStr f).headRequests = b.headRequests := by
  have hconstant (k : Value) : (k.mapStr f).string? = k.string?.map f := by cases k <;> rfl
  simp only [headRequests, mapStr_eq, List.length_map, List.filterMap_map, Function.comp_def,
    hconstant, ← List.map_filterMap, asked_map hf]

theorem Body.restRequests_mapStr (b : Body) : (b.mapStr f).restRequests = b.restRequests := by
  have hsource : (b.source.map f).toList = b.source.toList.map f := by cases b.source <;> rfl
  have hlocal (l : LocalVar) : (l.mapStr f).name = l.name.map f := rfl
  have hupvalue (u : Upvalue) : (u.mapStr f).name = u.name.map f := rfl
  simp only [restRequests, mapStr_eq, List.length_map, List.filterMap_map, Function.comp_def,
    hsource, hlocal, hupvalue, ← List.map_filterMap, asked_map hf]

/-- Requests do not tell strings of the same content apart. -/
theorem Prototype.requests_mapStr (p : Prototype) : (p.mapStr f).requests = p.requests := by
  induction p with
  | mk body children ih =>
    have hchildren : (children.map (mapStr f)).flatMap requests = children.flatMap requests := by
      rw [List.flatMap_map]
      exact List.flatMap_congr ih
    rw [mapStr_mk, requests_mk, requests_mk, List.length_map, hchildren,
      Body.headRequests_mapStr hf, Body.restRequests_mapStr hf]

end MapStr

namespace Chunk

def Need.request : Need → Request
  | .block b n => .block b n
  | .text s => .text s.bytes

def Request.isDemand : Request → Bool
  | .note _ => false
  | _ => true

theorem map_request_numbered (k : Nat) (rs : List Request) :
    (numbered k rs).map Need.request = rs.filter Request.isDemand := by
  induction rs generalizing k with
  | nil => rfl
  | cons r rs ih =>
    cases r with
    | block b n => exact congrArg (Request.block b n :: ·) (ih k)
    | text content => exact congrArg (Request.text content :: ·) (ih (k + 1))
    | note m => exact ih k

theorem exists_of_mem_numbered {k : Nat} {rs : List Request} {u : Str}
    (h : .text u ∈ numbered k rs) :
    ∃ i content, (texts rs)[i]? = some content ∧ u = Reader.provisional (k + i) content := by
  induction rs generalizing k with
  | nil => cases h
  | cons r rs ih =>
    cases r with
    | block b n =>
      obtain ⟨i, content, hi, hu⟩ := ih ((List.mem_cons.1 h).resolve_left fun h => by cases h)
      exact ⟨i, content, hi, hu⟩
    | text content =>
      rcases List.mem_cons.1 h with heq | h
      · cases heq
        exact ⟨0, content, rfl, rfl⟩
      · obtain ⟨i, content', hi, rfl⟩ := ih h
        exact ⟨i + 1, content', hi, by rw [Nat.add_assoc, Nat.add_comm 1]⟩
    | note m =>
      obtain ⟨i, content, hi, hu⟩ := ih h
      exact ⟨i, content, hi, hu⟩

theorem map_request_needs (p : Prototype) : p.needs.map Need.request = p.requests := by
  have htexts (ss : List Str) : (ss.map Need.text).map Need.request = asked ss := by
    rw [List.map_map]
    rfl
  induction p with
  | mk body children ih =>
    have hchildren : (children.flatMap Prototype.needs).map Need.request =
        children.flatMap Prototype.requests := by
      rw [List.map_flatMap]
      exact List.flatMap_congr ih
    simp only [Prototype.needs_mk, Prototype.requests_mk, Body.headNeeds, Body.headRequests,
      Body.restNeeds, Body.restRequests, List.map_append, List.map_cons, htexts, hchildren,
      Need.request, List.append_assoc, List.cons_append]

section Load

variable {c c' : Collector} {name : String} {bytes : List UInt8} {f : Closure}

/-- The string made in place of a provisional one. -/
def Serving.resolve (t : Serving) (s : Str) : Str := t.strings.getD s.serial s

/-- The strings made have the contents of those that they are made for. -/
theorem keepsTexts_resolve {rs : List Request} {t : Serving} {ms : List Move}
    (hserve : Serving.serveAll ⟨c, [], #[]⟩ rs = (true, t)) (hms : numbered 0 rs = needs ms) :
    KeepsTexts t.resolve ms := by
  intro u hu
  rw [← hms] at hu
  obtain ⟨i, content, hi, rfl⟩ := exists_of_mem_numbered hu
  rw [Nat.zero_add]
  have hcontent : (t.resolve (Reader.provisional i content)).anonymous = .ofContent content :=
    Serving.resolves_serveAll hserve i content hi
  have hbytes := congrArg Str.bytes hcontent
  exact hbytes

/-- A load that succeeds has read a tree in due course, and all that was asked for was served. -/
theorem course_of_load (h : load c name bytes = (.ok f, c')) : ∃ q s t ms,
    scan (displayName name) bytes = .ok q s ∧
      Serving.serveAll ⟨c, [], #[]⟩ s.requests.toList = (true, t) ∧
      f.prototype = q.mapStr t.resolve ∧ (∃ level text, c' = t.collector.log level text) ∧
      Course.chunk q ms ∧ GoesBy (Reader.chunk (displayName name)) [] q ms ∧
      bytes = taken ms ++ s.rest ∧ numbered 0 s.requests.toList = needs ms := by
  obtain ⟨q, s, hscan⟩ := exists_scan_of_load (congrArg Prod.fst h : (load c name bytes).1 = .ok f)
  obtain ⟨ms, hms, hgoes, hbytes⟩ := follows_chunk (displayName name) [] bytes q s hscan
  obtain ⟨qs, hqs, hok⟩ := hgoes.ok
  have hrequests : s.requests.toList = qs := by
    have hscan' : Reader.chunk (displayName name) (.after [] bytes) = .ok q s := hscan
    rw [hbytes, hok] at hscan'
    exact (congrArg (fun s => s.requests.toList) (EStateM.Result.ok.inj hscan').2).symm
  unfold load loadNamed at h
  rw [hscan] at h
  dsimp only at h
  split at h
  · cases h
  · rename_i t hserve
    cases h
    exact ⟨q, s, t, ms, hscan, hserve, rfl, ⟨_, _, rfl⟩, hms, hgoes, hbytes, hrequests ▸ hqs⟩

/-- What a load that succeeds has served is what its tree tells. -/
theorem served_of_load (h : load c name bytes = (.ok f, c')) : ∃ rs s,
    Serving.serveAll ⟨c, [], #[]⟩ rs = (true, s) ∧
      rs.filter Request.isDemand = f.prototype.requests ∧
      ∃ level text, c' = s.collector.log level text := by
  have hf : (load c name bytes).1 = .ok f := congrArg Prod.fst h
  obtain ⟨q, s, t, ms, hscan, hserve, -, hlog, hms, -, -, hneeds⟩ := course_of_load h
  have hsame : f.prototype.requests = q.requests := by
    have hbytes (t : Str) : t.anonymous.bytes = t.bytes := rfl
    have hmap := congrArg Prototype.requests (mapStr_of_load hf hscan)
    rwa [Prototype.requests_mapStr hbytes, Prototype.requests_mapStr hbytes] at hmap
  refine ⟨s.requests.toList, t, hserve, ?_, hlog⟩
  rw [← map_request_numbered 0, hneeds, chunk_needs hms, map_request_needs, hsame]

end Load

end Chunk

end LuaData
