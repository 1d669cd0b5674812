import LuaData.Chunk.Layout
import LuaData.Proofs.Prototype

namespace LuaData

def total {α : Type} (w : α → Nat) (xs : List α) : Nat := xs.foldr (fun x n => w x + n) 0

section Total

variable {α β : Type} (w : α → Nat)

@[simp] theorem total_nil : total w [] = 0 := rfl

@[simp] theorem total_cons (x : α) (xs : List α) : total w (x :: xs) = w x + total w xs := rfl

@[simp] theorem total_append (xs ys : List α) : total w (xs ++ ys) = total w xs + total w ys := by
  induction xs with
  | nil => simp
  | cons x xs ih => simp [ih, Nat.add_assoc]

@[simp] theorem total_zero (xs : List α) : total (fun _ => 0) xs = 0 := by
  induction xs with
  | nil => rfl
  | cons x xs ih => rw [total_cons, ih]

@[simp] theorem total_replicate (n : Nat) (x : α) : total w (List.replicate n x) = n * w x := by
  induction n with
  | zero => exact (Nat.zero_mul _).symm
  | succ n ih => rw [List.replicate_succ, total_cons, ih, Nat.succ_mul, Nat.add_comm]

theorem total_map (g : β → α) (ys : List β) : total w (ys.map g) = total (fun y => w (g y)) ys := by
  rw [total, List.foldr_map]
  rfl

theorem total_eq_of_perm {xs ys : List α} (h : xs.Perm ys) : total w xs = total w ys := by
  induction h with
  | nil => rfl
  | cons x _ ih => exact congrArg (w x + ·) ih
  | swap x y xs => exact Nat.add_left_comm _ _ _
  | trans _ _ ih ih' => exact ih.trans ih'

theorem total_le_total {w w' : α → Nat} {xs : List α} (h : ∀ x ∈ xs, w x ≤ w' x) :
    total w xs ≤ total w' xs := by
  induction xs with
  | nil => exact Nat.le_refl 0
  | cons x xs ih =>
    exact Nat.add_le_add (h x List.mem_cons_self) (ih fun x hx => h x (List.mem_cons_of_mem _ hx))

theorem total_flatMap (g : β → List α) (ys : List β) :
    total w (ys.flatMap g) = total (fun y => total w (g y)) ys := by
  induction ys with
  | nil => rfl
  | cons y ys ih => rw [List.flatMap_cons, total_append, total_cons, ih]

theorem total_filterMap (g : β → Option α) (ys : List β) :
    total w (ys.filterMap g) = total (fun y => total w (g y).toList) ys := by
  induction ys with
  | nil => rfl
  | cons y ys ih =>
    rw [List.filterMap_cons, total_cons, ← ih]
    cases g y <;> simp

end Total

theorem Block.bytes_zero (b : Block) : b.bytes 0 = 0 := by
  rw [Block.bytes, Nat.zero_mul, Nat.zero_min]

def Str.ofContent (bytes : List UInt8) : Str := ⟨0, 0, bytes⟩

def Str.anonymous (s : Str) : Str := .ofContent s.bytes

def Str.memory (s : Str) : Nat := Block.stringBytes.bytes s.length

def clamp (n : Int32) : Int32 := if n < 0 then 0 else n

theorem clamp_nonneg (n : Int32) : ¬clamp n < 0 := by
  unfold clamp
  split
  · decide
  · assumption

namespace Value

def mapStr (f : Str → Str) : Value → Value
  | string s => string (f s)
  | k => k

def string? : Value → Option Str
  | string s => some s
  | _ => none

/-- What is kept of a constant: values that no compiler produces become nil. -/
def asConstant (k : Value) : Value := if k.isConstant then k else nil

end Value

namespace LocalVar

def mapStr (f : Str → Str) (l : LocalVar) : LocalVar := { l with name := l.name.map f }

def canonical (l : LocalVar) : LocalVar :=
  { l with startPc := clamp l.startPc, endPc := clamp l.endPc }

end LocalVar

namespace Upvalue

def mapStr (f : Str → Str) (u : Upvalue) : Upvalue := { u with name := u.name.map f }

def unnamed (u : Upvalue) : Upvalue := { u with name := none }

theorem unnamed_of_name {u : Upvalue} (h : u.name = none) : u.unnamed = u := by
  cases u
  cases h
  rfl

end Upvalue

namespace Body

theorem mapStr_eq (f : Str → Str) (b : Body) : b.mapStr f =
    { b with
      constants := b.constants.map (Value.mapStr f)
      upvalues := b.upvalues.map (Upvalue.mapStr f)
      source := b.source.map f
      locals := b.locals.map (LocalVar.mapStr f) } := rfl

theorem strings_eq (b : Body) : b.strings =
    b.constants.filterMap Value.string? ++ b.source.toList ++ b.locals.filterMap LocalVar.name ++
      b.upvalues.filterMap Upvalue.name := rfl

theorem forall_mem_strings {b : Body} {P : Str → Prop} : (∀ s ∈ b.strings, P s) ↔
    (∀ k ∈ b.constants, ∀ s ∈ k.string?, P s) ∧ (∀ s ∈ b.source, P s) ∧
      (∀ l ∈ b.locals, ∀ s ∈ l.name, P s) ∧ ∀ u ∈ b.upvalues, ∀ s ∈ u.name, P s := by
  simp only [strings_eq, List.forall_mem_append, and_assoc, List.mem_filterMap, Option.mem_toList,
    forall_exists_index, and_imp, Option.mem_def]
  grind

theorem mapStr_mapStr (g f : Str → Str) (b : Body) :
    (b.mapStr f).mapStr g = b.mapStr fun s => g (f s) := by
  have hconstant : ∀ k : Value, (k.mapStr f).mapStr g = k.mapStr fun s => g (f s) := by
    intro k
    cases k <;> rfl
  simp [mapStr_eq, hconstant, Upvalue.mapStr, LocalVar.mapStr, Function.comp_def]

def canonical (b : Body) : Body :=
  { b with
    lineDefined := clamp b.lineDefined
    lastLineDefined := clamp b.lastLineDefined
    constants := b.constants.map Value.asConstant
    locals := b.locals.map LocalVar.canonical }

def stripped (b : Body) : Body :=
  { b with
    source := none
    lines := []
    locals := []
    upvalues := b.upvalues.map Upvalue.unnamed }

def kept (strip : Bool) (b : Body) : Body := if strip then b.canonical.stripped else b.canonical

/-- Verification does not look at what is lost. -/
theorem fault?_kept (strip : Bool) (b : Body) (childCount : Nat) :
    (b.kept strip).fault? childCount = b.fault? childCount := by
  cases strip <;>
    simp [kept, canonical, stripped, Body.fault?, Body.bounds]

/-- All lists are short enough to be counted, all strings to be held in memory. -/
structure Expressible (b : Body) : Prop where
  code : b.code.length ≤ Chunk.maxCount
  constants : b.constants.length ≤ Chunk.maxCount
  upvalues : b.upvalues.length ≤ Chunk.maxCount
  lines : b.lines.length ≤ Chunk.maxCount
  locals : b.locals.length ≤ Chunk.maxCount
  strings : ∀ s ∈ b.strings, s.length ≤ Block.byteLimit

def memory (b : Body) (childCount : Nat) : Nat :=
  Block.prototype.bytes 1 + Block.code.bytes b.code.length +
    Block.constants.bytes b.constants.length + Block.children.bytes childCount +
    Block.upvalues.bytes b.upvalues.length + Block.lineInfo.bytes b.lines.length +
    Block.locals.bytes b.locals.length + total Str.memory b.strings

theorem strings_mapStr (f : Str → Str) (b : Body) : (b.mapStr f).strings = b.strings.map f := by
  have hconstant (k : Value) : (k.mapStr f).string? = k.string?.map f := by cases k <;> rfl
  have hsource : (b.source.map f).toList = b.source.toList.map f := by cases b.source <;> rfl
  simp [strings_eq, mapStr_eq, List.filterMap_map, List.map_filterMap, Function.comp_def, hconstant,
    hsource, LocalVar.mapStr, Upvalue.mapStr]

theorem memory_mapStr_anonymous (b : Body) (childCount : Nat) :
    (b.mapStr Str.anonymous).memory childCount = b.memory childCount := by
  have hstrings : total Str.memory (b.mapStr Str.anonymous).strings =
      total Str.memory b.strings := by
    rw [strings_mapStr, total_map]
    rfl
  rw [memory, memory, hstrings]
  simp only [mapStr_eq, List.length_map]

theorem strings_canonical (b : Body) : b.canonical.strings = b.strings := by
  have hconstant (k : Value) : k.asConstant.string? = k.string? := by cases k <;> rfl
  simp [strings_eq, canonical, List.filterMap_map, Function.comp_def, hconstant,
    LocalVar.canonical]

theorem strings_stripped (b : Body) : b.stripped.strings = b.constants.filterMap Value.string? := by
  simp [strings_eq, stripped, Upvalue.unnamed]

/-- A function does not grow when it is written and read back. -/
theorem memory_kept_le (strip : Bool) (b : Body) (childCount : Nat) :
    (b.kept strip).memory childCount ≤ b.memory childCount := by
  have hcanonical : b.canonical.memory childCount = b.memory childCount := by
    rw [memory, memory, strings_canonical]
    simp only [canonical, List.length_map]
  cases strip with
  | false => exact Nat.le_of_eq hcanonical
  | true =>
    have hstrings : total Str.memory b.canonical.stripped.strings ≤
        total Str.memory b.canonical.strings := by
      rw [strings_stripped, strings_eq]
      simp only [total_append]
      omega
    rw [← hcanonical]
    simp only [kept, if_true, memory, stripped, List.length_map, List.length_nil,
      Block.bytes_zero] at hstrings ⊢
    omega

end Body

namespace Prototype

mutual

def mapBody (f : Body → Body) : Prototype → Prototype
  | mk body children => mk (f body) (mapBodies f children)

def mapBodies (f : Body → Body) : List Prototype → List Prototype
  | [] => []
  | p :: ps => mapBody f p :: mapBodies f ps

end

theorem mapBodies_eq_map (f : Body → Body) (ps : List Prototype) :
    mapBodies f ps = ps.map (mapBody f) := by
  induction ps with
  | nil => rfl
  | cons p ps ih => rw [mapBodies, ih, List.map_cons]

mutual

def postOrder : Prototype → List Prototype
  | mk body children => postOrderAll children ++ [mk body children]

def postOrderAll : List Prototype → List Prototype
  | [] => []
  | p :: ps => postOrder p ++ postOrderAll ps

end

theorem flattenAll_eq_flatMap (ps : List Prototype) : flattenAll ps = ps.flatMap flatten := by
  induction ps with
  | nil => rfl
  | cons p ps ih => rw [flattenAll, ih, List.flatMap_cons]

theorem mapBody_mk (g : Body → Body) (body : Body) (children : List Prototype) :
    (mk body children).mapBody g = mk (g body) (children.map (mapBody g)) := by
  rw [mapBody, mapBodies_eq_map]

def kept (strip : Bool) (p : Prototype) : Prototype := p.mapBody (Body.kept strip)

theorem kept_mk (strip : Bool) (body : Body) (children : List Prototype) :
    (mk body children).kept strip = mk (body.kept strip) (children.map (kept strip)) :=
  mapBody_mk _ body children

theorem mapStr_mk (f : Str → Str) (body : Body) (children : List Prototype) :
    (mk body children).mapStr f = mk (body.mapStr f) (children.map (mapStr f)) := by
  rw [mapStr, mapStrAll_eq_map]

theorem mapStr_eq_mapBody (f : Str → Str) (p : Prototype) :
    p.mapStr f = p.mapBody (Body.mapStr f) := by
  induction p with
  | mk body children ih => rw [mapStr_mk, mapBody_mk, List.map_congr_left ih]

mutual

theorem mem_postOrder_iff {q : Prototype} (p : Prototype) :
    q ∈ p.postOrder ↔ ∃ d, Occurs q d p := by
  obtain ⟨body, children⟩ := p
  rw [postOrder, List.mem_append, mem_postOrderAll_iff children, List.mem_singleton]
  constructor
  · rintro (⟨r, hr, d, hq⟩ | rfl)
    · exact ⟨d + 1, .child hr hq⟩
    · exact ⟨0, .root⟩
  · rintro ⟨d, _ | ⟨hr, hq⟩⟩
    · exact .inr rfl
    · exact .inl ⟨_, hr, _, hq⟩

theorem mem_postOrderAll_iff {q : Prototype} (ps : List Prototype) :
    q ∈ postOrderAll ps ↔ ∃ p ∈ ps, ∃ d, Occurs q d p := by
  match ps with
  | [] => simp [postOrderAll]
  | p :: ps =>
    rw [postOrderAll, List.mem_append, mem_postOrder_iff p, mem_postOrderAll_iff ps]
    simp only [List.mem_cons, exists_eq_or_imp]

end

theorem mapStr_mapStr (g f : Str → Str) (p : Prototype) :
    (p.mapStr f).mapStr g = p.mapStr fun s => g (f s) := by
  induction p with
  | mk body children ih =>
    rw [mapStr_mk, mapStr_mk, mapStr_mk, Body.mapStr_mapStr, List.map_map]
    exact congrArg _ (List.map_congr_left ih)

/-- The first fault of a tree, functions being looked at when those nested in them were. -/
def firstFault? (p : Prototype) : Option Fault := p.postOrder.findSome? fault?

theorem findSome?_congr {α β : Type} {f g : α → Option β} {xs : List α} (h : ∀ x ∈ xs, f x = g x) :
    xs.findSome? f = xs.findSome? g := by
  induction xs with
  | nil => rfl
  | cons x xs ih =>
    rw [List.findSome?_cons, List.findSome?_cons, h x List.mem_cons_self,
      ih fun x hx => h x (List.mem_cons_of_mem _ hx)]

theorem findSome?_postOrderAll (ps : List Prototype) :
    (postOrderAll ps).findSome? fault? = ps.findSome? firstFault? := by
  induction ps with
  | nil => rfl
  | cons p ps ih =>
    rw [postOrderAll, List.findSome?_append, ih, List.findSome?_cons, ← firstFault?]
    cases p.firstFault? <;> rfl

theorem firstFault?_eq_none_iff {p : Prototype} :
    p.firstFault? = none ↔ ∀ d q, Occurs q d p → q.fault? = none := by
  rw [firstFault?, List.findSome?_eq_none_iff]
  simp only [mem_postOrder_iff, forall_exists_index]
  exact forall_comm

theorem firstFault?_mk (body : Body) (children : List Prototype) :
    (mk body children).firstFault? =
      (children.findSome? firstFault?).or (body.fault? children.length) := by
  rw [firstFault?, postOrder, List.findSome?_append, findSome?_postOrderAll,
    List.findSome?_singleton]
  rfl

def memory (p : Prototype) : Nat := total (fun f => f.1.memory f.2) p.flatten

theorem memory_mk (body : Body) (children : List Prototype) :
    (mk body children).memory = body.memory children.length + total memory children := by
  rw [memory, flatten, total_cons, flattenAll_eq_flatMap, total_flatMap]
  rfl

section MapBody

variable {g : Body → Body} {levels : Nat} {p : Prototype}

/-- A tree with other functions in the same places is as deep. -/
theorem shallow_mapBody_iff : (p.mapBody g).Shallow levels ↔ p.Shallow levels := by
  induction levels generalizing p with
  | zero => exact ⟨fun h => (Nat.not_lt_zero 0 (h 0 _ .root)).elim,
      fun h => (Nat.not_lt_zero 0 (h 0 _ .root)).elim⟩
  | succ levels ih =>
    obtain ⟨body, children⟩ := p
    simp only [mapBody_mk, shallow_mk_iff, List.forall_mem_map, ih]

theorem firstFault?_mapBody (hg : ∀ b n, (g b).fault? n = b.fault? n) :
    (p.mapBody g).firstFault? = p.firstFault? := by
  induction p with
  | mk body children ih =>
    have hchildren : (children.map (mapBody g)).findSome? firstFault? =
        children.findSome? firstFault? := by
      rw [List.findSome?_map]
      exact findSome?_congr ih
    rw [mapBody_mk, firstFault?_mk, firstFault?_mk, hchildren, hg, List.length_map]

theorem memory_mapBody_le (hg : ∀ b n, (g b).memory n ≤ b.memory n) :
    (p.mapBody g).memory ≤ p.memory := by
  induction p with
  | mk body children ih =>
    rw [mapBody_mk, memory_mk, memory_mk, List.length_map, total_map]
    exact Nat.add_le_add (hg _ _) (total_le_total ih)

end MapBody

theorem mapStr_kept (strip : Bool) (p : Prototype) : (p.kept strip).mapStr Str.anonymous =
    (p.mapBody (Body.kept strip)).mapBody (Body.mapStr Str.anonymous) := mapStr_eq_mapBody _ _

theorem Shallow.mapStr_kept {levels : Nat} {p : Prototype} (hp : p.Shallow levels) (strip : Bool) :
    ((p.kept strip).mapStr Str.anonymous).Shallow levels := by
  rw [Prototype.mapStr_kept, shallow_mapBody_iff, shallow_mapBody_iff]
  exact hp

theorem firstFault?_mapStr_kept (strip : Bool) (p : Prototype) :
    ((p.kept strip).mapStr Str.anonymous).firstFault? = p.firstFault? := by
  rw [mapStr_kept, firstFault?_mapBody fun b => b.fault?_mapStr _,
    firstFault?_mapBody fun b => b.fault?_kept strip]

theorem memory_mapStr_kept_le (strip : Bool) (p : Prototype) :
    ((p.kept strip).mapStr Str.anonymous).memory ≤ p.memory := by
  rw [mapStr_kept]
  exact Nat.le_trans
    (memory_mapBody_le fun b n => Nat.le_of_eq (b.memory_mapStr_anonymous n))
    (memory_mapBody_le fun b n => b.memory_kept_le strip n)

def Expressible (levels : Nat) (p : Prototype) : Prop :=
  ∀ d q, Occurs q d p →
    d < levels ∧ q.body.Expressible ∧ q.children.length ≤ Chunk.maxCount

theorem Expressible.shallow {levels : Nat} {p : Prototype} (hp : p.Expressible levels) :
    p.Shallow levels := fun d q hq => (hp d q hq).1

theorem Expressible.children {levels : Nat} {p q : Prototype} (hp : p.Expressible (levels + 1))
    (hq : q ∈ p.children) : q.Expressible levels := by
  intro d r hr
  obtain ⟨hd, hrest⟩ := hp (d + 1) r (.child hq hr)
  exact ⟨Nat.lt_of_succ_lt_succ hd, hrest⟩

theorem expressible_mk {levels : Nat} {body : Body} {children : List Prototype}
    (hbody : body.Expressible) (hcount : children.length ≤ Chunk.maxCount)
    (hchildren : ∀ p ∈ children, p.Expressible levels) :
    (mk body children).Expressible (levels + 1) := by
  intro d q hq
  obtain _ | ⟨hr, hq⟩ := hq
  · exact ⟨Nat.succ_pos _, hbody, hcount⟩
  · obtain ⟨hd, hrest⟩ := hchildren _ hr _ q hq
    exact ⟨Nat.succ_lt_succ hd, hrest⟩

end Prototype

end LuaData
