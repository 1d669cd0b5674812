import LuaData.Proofs.Chunk.Elements

namespace LuaData

def Body.head (b : Body) : Body :=
  { b with upvalues := [], source := none, lines := [], locals := [] }

def Body.headMemory (b : Body) : Nat :=
  Block.prototype.bytes 1 + (Block.code.bytes b.code.length +
    (Block.constants.bytes b.constants.length +
      total (fun k => total Str.memory k.string?.toList) b.constants))

def Body.tailMemory (b : Body) : Nat :=
  Block.upvalues.bytes b.upvalues.length + (total Str.memory b.source.toList +
    (Block.lineInfo.bytes b.lines.length + (Block.locals.bytes b.locals.length +
      total (fun l => total Str.memory l.name.toList) b.locals +
        total (fun u => total Str.memory u.name.toList) b.upvalues)))

theorem Body.memory_eq (b : Body) (childCount : Nat) :
    b.memory childCount = b.headMemory + (Block.children.bytes childCount + b.tailMemory) := by
  rw [memory, strings_eq, headMemory, tailMemory]
  simp only [total_append, total_filterMap]
  omega

namespace Chunk

namespace Reader

def head : Reader Body := do
  request (.block .prototype 1)
  let lineDefined ← field
  let lastLineDefined ← field
  let paramCount ← byte
  let isVararg ← flag
  let maxStack ← byte
  let code ← list .code instruction
  let constants ← list .constants constant
  return { lineDefined, lastLineDefined, paramCount, isVararg, maxStack, code, constants,
           upvalues := [], source := none, lines := [], locals := [] }

def rest (f : Body) : Reader Body := do
  let unnamed ← list .upvalues upvalue
  let source ← string
  let lines ← list .lineInfo int
  let locals ← list .locals localVar
  let upvalues ← upvalueNames unnamed
  return { f with source, lines, locals, upvalues }

/-- Completes and verifies a function of which the head and the nested ones are known. -/
def finish (name : String) (f : Body) (children : List Prototype) : Reader Prototype := do
  let f ← rest f
  accept name f children.length
  return .mk f children

theorem function_succ (name : String) (levels : Nat) : function name (levels + 1) = (do
    let f ← head
    let children ← list .children (function name levels)
    finish name f children) := by
  simp only [function, head, rest, finish, bind_assoc, pure_bind]

end Reader

section Parts

variable {f : Body} {bytes : List UInt8}

theorem reads_head (h : Form.head f bytes) :
    Reads Reader.head bytes f.headMemory fun g x => x.mapStr g = f.head := by
  obtain ⟨hline, hlast, hvararg, hcode, hconstants⟩ := h
  rw [Body.headMemory]
  apply (reads_block .prototype 1).bind_nil
  intro _ _
  apply (reads_field hline).bind_free
  intro lineDefined hline
  apply (reads_field hlast).bind_free
  intro lastLineDefined hlast
  apply (reads_byte _).bind_free
  intro paramCount hparams
  apply (reads_flag hvararg).bind_free
  intro isVararg hvararg
  apply (reads_byte _).bind_free
  intro maxStack hstack
  apply (Reads.list_free .code hcode fun i _ _ => reads_instruction).bind
  intro code hcode
  apply (Reads.list .constants hconstants fun k _ _ => reads_constant).map
  intro g constants hconst
  intros
  -- only the strings among the constants are still to be resolved
  subst hline hlast hparams hvararg hstack hcode
  simp only [Body.mapStr_eq, hconst, Body.head, List.map_nil, Option.map_none]

theorem map_nameUpvalues (g : Str → Str) (us : List Upvalue) (ns : List (Option Str)) :
    (Reader.nameUpvalues us ns).map (Upvalue.mapStr g) =
      Reader.nameUpvalues (us.map (Upvalue.mapStr g)) (ns.map (Option.map g)) := by
  induction us generalizing ns with
  | nil => cases ns <;> rfl
  | cons u us ih =>
    cases ns with
    | nil => rfl
    | cons n ns =>
      rw [Reader.nameUpvalues, List.map_cons, ih]
      rfl

theorem map_unnamed (g : Str → Str) (us : List Upvalue) :
    (us.map Upvalue.unnamed).map (Upvalue.mapStr g) = us.map Upvalue.unnamed := by
  rw [List.map_map]
  rfl

/-- Upvalues get their names back, though those at the end without one were left out. -/
theorem nameUpvalues_unnamed {us : List Upvalue} {named : List (Option Str)} {n : Nat}
    (h : us.map Upvalue.name = named ++ List.replicate n none) :
    Reader.nameUpvalues (us.map Upvalue.unnamed) named = us := by
  induction us generalizing named with
  | nil => cases named <;> rfl
  | cons u us ih =>
    cases named with
    | nil =>
      -- none of the names that are left is one
      have hnone : ∀ v ∈ u :: us, v.unnamed = v := fun v hv =>
        Upvalue.unnamed_of_name (List.eq_of_mem_replicate (h ▸ List.mem_map_of_mem hv))
      exact (List.map_congr_left hnone).trans (List.map_id _)
    | cons name named =>
      rw [List.map_cons, List.cons_append, List.cons.injEq] at h
      obtain ⟨rfl, h⟩ := h
      rw [List.map_cons, Reader.nameUpvalues, ih h]
      rfl

theorem reads_upvalueNames {us : List Upvalue} {ns : List (Option Str)}
    (h : Form.list Form.string ns bytes) (hlength : ns.length ≤ us.length) :
    Reads (Reader.upvalueNames us) bytes (total (fun n => total Str.memory n.toList) ns)
      fun g x => x.map (Upvalue.mapStr g) =
        Reader.nameUpvalues (us.map (Upvalue.mapStr g)) ns := by
  obtain ⟨hn, records, hrecords, rfl⟩ := h
  apply (reads_count hn).bind_free
  intro n hn
  subst hn
  rw [if_neg (Nat.not_lt.2 hlength)]
  apply (Reads.times hrecords fun n _ _ => reads_string).map
  intro g names hnames _
  rw [map_nameUpvalues, hnames]

theorem reads_rest (h : Form.rest f bytes) (x : Body) :
    Reads (Reader.rest x) bytes f.tailMemory
      fun g y => x.mapStr g = f.head → y.mapStr g = f := by
  obtain @⟨_, _, _, _, _, named, n, hupvalues, hsource, hlines, hlocals, hlist, hnames⟩ := h
  have hlength : named.length ≤ (f.upvalues.map Upvalue.unnamed).length := by
    have hlength := congrArg List.length hnames
    rw [List.length_map, List.length_append] at hlength
    rw [List.length_map]
    omega
  have hmemory : total (fun u => total Str.memory u.name.toList) f.upvalues =
      total (fun n => total Str.memory n.toList) named := by
    have hmap := total_map (fun n : Option Str => total Str.memory n.toList) Upvalue.name f.upvalues
    rw [← hmap, hnames, total_append, total_replicate]
    exact Nat.add_zero _
  rw [Body.tailMemory, hmemory, ← List.length_map Upvalue.unnamed]
  apply (Reads.list_free .upvalues hupvalues fun u _ _ => reads_upvalue).bind
  intro unnamed hunnamed
  subst hunnamed
  apply (reads_string hsource).bind
  intro source _
  apply (Reads.list_free .lineInfo hlines fun n _ _ => reads_int).bind
  intro lines hlines
  apply (Reads.list .locals hlocals fun l _ _ => reads_localVar).bind
  intro locals _
  apply (reads_upvalueNames hlist hlength).map
  intro g upvalues hupvalues hlocals hlines hsource _ hx
  rw [map_unnamed, nameUpvalues_unnamed hnames] at hupvalues
  subst hlines
  have hmap : ({ x with source, lines := f.lines, locals, upvalues } : Body).mapStr g =
      { x.mapStr g with
        source := source.map g
        lines := f.lines
        locals := locals.map (LocalVar.mapStr g)
        upvalues := upvalues.map (Upvalue.mapStr g) } := rfl
  rw [hmap, hx, hsource, hlocals, hupvalues]
  rfl

end Parts

section Accept

variable {name : String} {f : Body} {childCount : Nat}

theorem reads_accept (hf : f.fault? childCount = none) :
    Reads (Reader.accept name f childCount) [] 0 fun _ _ => True := by
  apply (reads_note _).bind_last
  intro _ _
  rw [hf]
  exact reads_pure fun _ _ => trivial

theorem fails_accept {fault : Fault} (hf : f.fault? childCount = some fault) :
    Fails (Reader.accept name f childCount) [] 0 (.invalidBytecode fault) := by
  apply (reads_note _).bind_last_fails
  intro _ _
  rw [hf]
  apply (reads_note _).bind_last_fails
  intro _ _
  exact fails_throw

end Accept

theorem memory_mk (body : Body) (children : List Prototype) : (Prototype.mk body children).memory =
    body.headMemory + (Block.children.bytes children.length + total Prototype.memory children +
      body.tailMemory) := by
  rw [Prototype.memory_mk, Body.memory_eq]
  omega

/-- A function read back is as good as the one that was meant. -/
theorem fault?_of_mapStr {f x : Body} {n : Nat} (hx : x.mapStr Str.anonymous = f) :
    x.fault? n = f.fault? n := by
  rw [← hx, Body.fault?_mapStr]

section Finish

variable {name : String} {f x : Body} {bytes : List UInt8} {qs : List Prototype}

theorem reads_finish (h : Form.rest f bytes) (hfault : f.fault? qs.length = none)
    (hx : x.mapStr Str.anonymous = f.head) :
    Reads (Reader.finish name x qs) bytes f.tailMemory
      fun g p => x.mapStr g = f.head → p.mapStr g = .mk f (qs.map (Prototype.mapStr g)) := by
  apply (reads_rest h x).bind_last
  intro y hy
  rw [← fault?_of_mapStr (hy hx)] at hfault
  apply (reads_accept hfault).bind_last
  intro _ _
  apply reads_pure
  intro g _ hy hx
  rw [Prototype.mapStr_mk, hy hx]

theorem fails_finish {fault : Fault} (h : Form.rest f bytes)
    (hfault : f.fault? qs.length = some fault) (hx : x.mapStr Str.anonymous = f.head) :
    Fails (Reader.finish name x qs) bytes f.tailMemory (.invalidBytecode fault) := by
  apply (reads_rest h x).bind_last_fails
  intro y hy
  rw [← fault?_of_mapStr (hy hx)] at hfault
  exact (fails_accept hfault).bind

end Finish

section Function

variable {name : String} {levels : Nat} {p : Prototype} {bytes : List UInt8} {fault : Fault}

/-- A tree without a fault is read from its records. -/
theorem reads_function (h : Form.function p bytes) (hp : p.Shallow levels)
    (hfault : p.firstFault? = none) :
    Reads (Reader.function name levels) bytes p.memory fun g q => q.mapStr g = p := by
  induction levels generalizing p bytes with
  | zero => exact absurd (hp 0 p .root) (Nat.not_lt_zero 0)
  | succ levels ih =>
    obtain ⟨body, children⟩ := p
    obtain ⟨a, b, c, ha, hb, hc, rfl⟩ := Form.function_mk_iff.1 h
    rw [Prototype.firstFault?_mk, Option.or_eq_none_iff, List.findSome?_eq_none_iff] at hfault
    obtain ⟨hnested, hown⟩ := hfault
    rw [Reader.function_succ, memory_mk]
    apply (reads_head ha).bind
    intro x hx
    apply (Reads.list .children hb fun q hq _ hform =>
      ih hform (hp.children hq) (hnested q hq)).bind
    intro qs hqs
    -- verification knows the nested functions by their number alone
    have hlength : qs.length = children.length := by
      rw [← congrArg List.length hqs, List.length_map]
    rw [← hlength] at hown
    apply (reads_finish hc hown hx).imp
    intro g q hq hqs hx
    rw [hq hx, hqs]

/-- The first fault of a tree is found. -/
theorem fails_function (h : Form.function p bytes) (hp : p.Shallow levels)
    (hfault : p.firstFault? = some fault) :
    Fails (Reader.function name levels) bytes p.memory (.invalidBytecode fault) := by
  induction levels generalizing p bytes fault with
  | zero => exact absurd (hp 0 p .root) (Nat.not_lt_zero 0)
  | succ levels ih =>
    obtain ⟨body, children⟩ := p
    obtain ⟨a, b, c, ha, hb, hc, rfl⟩ := Form.function_mk_iff.1 h
    rw [Reader.function_succ, memory_mk]
    apply (reads_head ha).bind_fails
    intro x hx
    rw [Prototype.firstFault?_mk] at hfault
    cases hnested : children.findSome? Prototype.firstFault? with
    | some nested =>
      rw [hnested] at hfault
      cases hfault
      -- what stands behind the nested functions is not read any more
      apply Fails.mono _ (Nat.le_add_right _ body.tailMemory)
      apply (fails_list .children hb
        (fun q hq _ hform => reads_function hform (hp.children hq))
        (fun q hq _ hform e he => ih hform (hp.children hq) he) hnested).bind
    | none =>
      rw [hnested, Option.none_or] at hfault
      rw [List.findSome?_eq_none_iff] at hnested
      -- all nested functions are read, and the fault is the function's own
      apply (Reads.list .children hb fun q hq _ hform =>
        reads_function hform (hp.children hq) (hnested q hq)).bind_fails
      intro qs hqs
      have hlength : qs.length = children.length := by
        rw [← congrArg List.length hqs, List.length_map]
      rw [← hlength] at hfault
      exact fails_finish hc hfault hx

end Function

end Chunk

end LuaData
