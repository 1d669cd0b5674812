import LuaData.Proofs.Chunk.Charges
import LuaData.Proofs.Chunk.Requests
import Mathlib.Algebra.Order.Group.Multiset
import Mathlib.Tactic.Abel

namespace LuaData

def longBlocks (ss : List Str) : List (Block × Nat) :=
  (ss.filter fun s => !s.isShort).map fun s => (.stringBytes, s.length)

theorem longBlocks_append (ss ss' : List Str) :
    longBlocks (ss ++ ss') = longBlocks ss ++ longBlocks ss' := by
  rw [longBlocks, List.filter_append, List.map_append]
  rfl

namespace Chunk

theorem chargesOf_append (rs rs' : List Request) :
    chargesOf (rs ++ rs') = chargesOf rs ++ chargesOf rs' := List.filterMap_append

theorem chargesOf_block (b : Block) (n : Nat) (rs : List Request) :
    chargesOf (.block b n :: rs) = (b, n) :: chargesOf rs := rfl

theorem chargesOf_asked (ss : List Str) : chargesOf (asked ss) = longBlocks ss := by
  rw [chargesOf, asked, longBlocks, List.filterMap_map, ← List.filterMap_eq_map,
    List.filterMap_filter]
  apply List.filterMap_congr
  intro s _
  by_cases hs : s.bytes.length ≤ Str.shortLimit <;>
    simp [Request.charge?, Str.isShort, Str.length, hs]

theorem chargesOf_demands (rs : List Request) :
    chargesOf (rs.filter Request.isDemand) = chargesOf rs := by
  rw [chargesOf, List.filterMap_filter]
  apply List.filterMap_congr
  intro r _
  cases r <;> rfl

end Chunk

open Chunk

theorem Body.blocks_perm (b : Body) (n : Nat) : (b.blocks n).Perm
    (chargesOf b.headRequests ++ (.children, n) :: chargesOf b.restRequests) := by
  have hblocks : b.blocks n = longBlocks b.strings ++
      [(.locals, b.locals.length), (.lineInfo, b.lines.length), (.upvalues, b.upvalues.length),
        (.children, n), (.constants, b.constants.length), (.code, b.code.length),
        (.prototype, 1)] := rfl
  rw [hblocks, strings_eq, headRequests, restRequests, ← Multiset.coe_eq_coe]
  simp only [chargesOf_append, chargesOf_block, chargesOf_asked, longBlocks_append,
    List.cons_append, ← Multiset.coe_add, ← Multiset.cons_coe, ← Multiset.singleton_add]
  abel

theorem Prototype.blocks_mk (body : Body) (children : List Prototype) :
    (mk body children).blocks = children.flatMap blocks ++ body.blocks children.length := by
  have hall (ps : List Prototype) : blocksAll ps = ps.flatMap blocks := by
    induction ps with
    | nil => rfl
    | cons p ps ih => rw [blocksAll, ih, List.flatMap_cons]
  rw [blocks, hall]

/-- The walk over a finished tree meets what was charged for when the tree was read. -/
theorem Prototype.blocks_perm (p : Prototype) : p.blocks.Perm (chargesOf p.requests) := by
  induction p with
  | mk body children ih =>
    have hchildren :
        (children.flatMap blocks).Perm (children.flatMap fun p => chargesOf p.requests) :=
      List.Perm.flatMap_left _ ih
    have hall : chargesOf (children.flatMap requests) =
        children.flatMap fun p => chargesOf p.requests := List.filterMap_flatMap
    rw [blocks_mk, requests_mk, chargesOf_append, chargesOf_append, chargesOf_block, hall]
    refine (hchildren.append (body.blocks_perm children.length)).trans ?_
    rw [← Multiset.coe_eq_coe]
    simp only [← Multiset.coe_add, ← Multiset.cons_coe, ← Multiset.singleton_add]
    abel

namespace Chunk

open Collector

/-- What a load was charged for in the course of the calls `es` is freed when the tree that it has
given is released, each block and long string once. What is left are the short strings that it
interned, and once nobody holds these, the next sweep gives their bytes back. -/
theorem balanced_of_load_release {c c' : Collector} {name : String} {bytes : List UInt8}
    {f : Closure} (h : load c name bytes = (.ok f, c')) :
    ∃ es made, Balanced c (f.prototype.release c') es f.prototype.blocks made ∧
      f.prototype.blocks.Perm (charges es) := by
  obtain ⟨rs, s, hserve, hdemands, level, text, rfl⟩ := served_of_load h
  obtain ⟨es, ⟨⟨made, hgrown⟩, -⟩, hcharges⟩ := Serving.accounts_serveAll ⟨c, [], #[]⟩ rs
  rw [hserve] at hgrown hcharges
  have hperm : f.prototype.blocks.Perm (charges es) := by
    rw [hcharges rfl, ← chargesOf_demands, hdemands]
    exact f.prototype.blocks_perm
  have hlog := hgrown.trans (.of_unmoved (s.collector.unmoved_log level text))
  rw [List.append_nil, List.nil_append] at hlog
  exact ⟨es, made, hlog.balanced hperm, hperm⟩

/-- A function whose strings have 39 to 41 bytes. -/
def wordy : Prototype :=
  (sample ⟨0x0080001f⟩).mapStr fun s => .ofContent (s.bytes ++ List.replicate 39 0x6b)

theorem balanced_of_load_release_wordy : ∃ f c',
    load (.new 1 Collector.unlimited) "@wordy" (wordy.encode false) = (.ok f, c') ∧
      (f.prototype.release c').total = 79 ∧
      ∃ es made, Balanced (.new 1 Collector.unlimited) (f.prototype.release c') es
        f.prototype.blocks made ∧ f.prototype.blocks.Perm (charges es) := by
  obtain ⟨f, hf⟩ : ∃ f, (load (.new 1 Collector.unlimited) "@wordy" (wordy.encode false)).1 =
      .ok f := eq_ok_of_isSome (by decide +kernel)
  have htotal : (load (.new 1 Collector.unlimited) "@wordy" (wordy.encode false)).1.toOption.map
      (fun f => (f.prototype.release
        (load (.new 1 Collector.unlimited) "@wordy" (wordy.encode false)).2).total) =
      some 79 := by decide +kernel
  rw [hf] at htotal
  have h : load (.new 1 Collector.unlimited) "@wordy" (wordy.encode false) =
      (.ok f, (load (.new 1 Collector.unlimited) "@wordy" (wordy.encode false)).2) := by rw [← hf]
  exact ⟨f, _, h, Option.some.inj htotal, balanced_of_load_release h⟩

end Chunk

end LuaData
