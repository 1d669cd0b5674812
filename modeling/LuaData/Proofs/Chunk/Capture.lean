import LuaData.Proofs.Chunk.Acceptance
import LuaData.Proofs.Verification.Units

namespace LuaData

/-- An upvalue apart from where it is found. -/
def Upvalue.uncaptured (u : Upvalue) : Upvalue := { u with isLocal := false, index := 0 }

def Body.uncaptured (b : Body) : Body := { b with upvalues := b.upvalues.map Upvalue.uncaptured }

def Prototype.uncaptured (p : Prototype) : Prototype := p.mapBody Body.uncaptured

/-- What an upvalue names is there in the enclosing function. -/
def Upvalue.FoundIn (u : Upvalue) (enclosing : Body) : Prop :=
  if u.isLocal then u.index ≤ enclosing.maxStack else u.index.toNat < enclosing.upvalues.length

/-- A closure instruction of a function without a fault names a function nested in it. -/
theorem Prototype.exists_child {p : Prototype} (h : p.fault? = none) {i : Instruction}
    (hi : i ∈ p.body.code) (hop : i.opcode? = some .closure) : ∃ q, p.children[i.bx]? = some q := by
  rw [← CodeUnit.flatMap_words_cut 0 p.body.code, List.mem_flatMap] at hi
  obtain ⟨u, hu, hi⟩ := hi
  have hu := accepted_of_fault? h u hu
  rcases List.mem_cons.1 hi with rfl | hi
  · obtain ⟨o, ho, hmet⟩ := Bounds.leaderFault_eq_none_iff.1 hu.leader
    obtain rfl : Opcode.closure = o := Option.some.inj (hop.symm.trans ho)
    have hlt := hmet (.prototype u.leader.bx) (by simp [Opcode.demands])
    rw [Demand.isMet_prototype] at hlt
    exact ⟨_, List.getElem?_eq_getElem hlt⟩
  · -- no word has to be followed by a closure instruction
    obtain ⟨f, -, hfault⟩ := hu.exists_follower (Option.mem_toList.1 hi)
    have hfollower := (Bounds.followerFault_eq_none_iff.1 hfault).1
    rw [hop] at hfollower
    cases f <;> cases hfollower

theorem Body.fault?_uncaptured (b : Body) (childCount : Nat) :
    b.uncaptured.fault? childCount = b.fault? childCount := by
  simp only [Body.fault?, Body.bounds, Body.uncaptured, List.length_map]

theorem Body.exists_of_uncaptured {f g : Body} (h : g.uncaptured = f.uncaptured) :
    ∃ us, g = { f with upvalues := us } ∧
      us.map Upvalue.uncaptured = f.upvalues.map Upvalue.uncaptured := by
  refine ⟨g.upvalues, ?_, congrArg Body.upvalues h⟩
  obtain ⟨⟩ := f
  obtain ⟨⟩ := g
  simp only [uncaptured, mk.injEq] at h ⊢
  simp only [h, and_self]

theorem Prototype.uncaptured_mk (body : Body) (children : List Prototype) :
    (mk body children).uncaptured = mk body.uncaptured (children.map uncaptured) :=
  mapBody_mk _ body children

namespace Chunk

section Form

variable {f g : Body} {p q : Prototype} {bytes : List UInt8}

theorem list_of_map_eq {α β : Type} {form : Form α} {k : α → β} {xs ys : List α}
    (h : Form.list form xs bytes) (he : ys.map k = xs.map k)
    (hform : ∀ x ∈ xs, ∀ y a, k y = k x → form x a → ∃ b, form y b ∧ b.length = a.length) :
    ∃ b, Form.list form ys b ∧ b.length = bytes.length := by
  obtain ⟨hn, records, hrecords, rfl⟩ := h
  have hlength : ys.length = xs.length := by simpa using congrArg List.length he
  suffices hall : ∃ records', List.Forall₂ form ys records' ∧
      records'.flatten.length = records.flatten.length by
    obtain ⟨records', hrecords', hsame⟩ := hall
    refine ⟨_, ⟨hlength ▸ hn, records', hrecords', rfl⟩, ?_⟩
    rw [List.length_append, List.length_append, hsame, hlength]
  clear hn hlength
  induction hrecords generalizing ys with
  | nil =>
    rw [List.map_nil, List.map_eq_nil_iff] at he
    subst he
    exact ⟨[], .nil, rfl⟩
  | @cons x a xs records hx _ ih =>
    cases ys with
    | nil => cases he
    | cons y ys =>
      rw [List.map_cons, List.map_cons, List.cons.injEq] at he
      obtain ⟨b, hb, hlength⟩ := hform x List.mem_cons_self y a he.1 hx
      obtain ⟨records', hrecords', hsame⟩ :=
        ih he.2 fun x hx => hform x (List.mem_cons_of_mem _ hx)
      refine ⟨b :: records', .cons hb hrecords', ?_⟩
      rw [List.flatten_cons, List.flatten_cons, List.length_append, List.length_append, hlength,
        hsame]

theorem head_of_uncaptured (h : Form.head f bytes) (he : g.uncaptured = f.uncaptured) :
    Form.head g bytes := by
  obtain ⟨us, rfl, -⟩ := Body.exists_of_uncaptured he
  obtain ⟨hline, hlast, hvararg, hcode, hconstants⟩ := h
  exact .mk hline hlast hvararg hcode hconstants

theorem rest_of_uncaptured (h : Form.rest f bytes) (he : g.uncaptured = f.uncaptured) :
    ∃ b, Form.rest g b ∧ b.length = bytes.length := by
  obtain ⟨us, rfl, hus⟩ := Body.exists_of_uncaptured he
  obtain ⟨hupvalues, hsource, hlines, hlocals, hlist, hnames⟩ := h
  have hsame : (us.map Upvalue.unnamed).map Upvalue.uncaptured =
      (f.upvalues.map Upvalue.unnamed).map Upvalue.uncaptured := by
    have h := congrArg (List.map Upvalue.unnamed) hus
    rw [List.map_map, List.map_map] at h ⊢
    exact h
  have hnamed : us.map Upvalue.name = f.upvalues.map Upvalue.name := by
    have h := congrArg (List.map Upvalue.name) hus
    rw [List.map_map, List.map_map] at h
    exact h
  -- every upvalue takes two bytes, wherever it is found
  obtain ⟨b, hb, hlength⟩ := list_of_map_eq hupvalues hsame fun u _ v a hv ha => by
    obtain ⟨hname, _, ⟨_, -, rfl⟩, rfl⟩ := ha
    have hnone : v.name = none := (congrArg Upvalue.name hv).trans hname
    refine ⟨[v.isLocal.toUInt8, v.index], ?_, rfl⟩
    have hform := upvalue_unnamed v
    rwa [Upvalue.unnamed_of_name hnone] at hform
  refine ⟨_, .mk hb hsource hlines hlocals hlist (hnamed.trans hnames), ?_⟩
  simp only [List.length_append, hlength]

theorem function_of_uncaptured (h : Form.function p bytes) (he : q.uncaptured = p.uncaptured) :
    ∃ b, Form.function q b ∧ b.length = bytes.length := by
  induction p generalizing q bytes with
  | mk body children ih =>
    obtain ⟨body', children'⟩ := q
    rw [Prototype.uncaptured_mk, Prototype.uncaptured_mk, Prototype.mk.injEq] at he
    obtain ⟨a, b, c, ha, hb, hc, rfl⟩ := Form.function_mk_iff.1 h
    obtain ⟨b', hb', hlength⟩ := list_of_map_eq hb he.2 fun r hr _ _ he hform => ih r hr hform he
    obtain ⟨c', hc', hlength'⟩ := rest_of_uncaptured hc he.1
    refine ⟨a ++ (b' ++ c'), Form.function_mk_iff.2
      ⟨a, b', c', head_of_uncaptured ha he.1, hb', hc', rfl⟩, ?_⟩
    simp only [List.length_append, hlength, hlength']

theorem chunk_of_uncaptured (h : Form.chunk p bytes) (he : q.uncaptured = p.uncaptured) :
    ∃ b, Form.chunk q b ∧ b.length = bytes.length := by
  obtain ⟨record, hrecord, rfl⟩ := h
  obtain ⟨b, hb, hlength⟩ := function_of_uncaptured hrecord he
  exact ⟨header ++ b, ⟨b, hb, rfl⟩, by rw [List.length_append, List.length_append, hlength]⟩

end Form

theorem acceptable_of_uncaptured {p q : Prototype} (hp : Acceptable p)
    (he : q.uncaptured = p.uncaptured) : Acceptable q := by
  rw [← acceptable_mapBody_iff Body.fault?_uncaptured] at hp ⊢
  exact Eq.mpr (congrArg Acceptable he) hp

/-- Every closure instruction of a loaded tree names a nested function. Where upvalues are found is
taken over unchecked: for every tree that differs from a loaded one in that alone there is an input
of the same length from which it is loaded, unless memory is refused. -/
theorem load_of_uncaptured {c : Collector} {name : String} {bytes : List UInt8} {f : Closure}
    (hf : (load c name bytes).1 = .ok f) :
    (∀ d p, Prototype.Occurs p d f.prototype → ∀ i ∈ p.body.code, i.opcode? = some .closure →
      ∃ q, p.children[i.bx]? = some q) ∧
    ∀ p : Prototype, p.uncaptured = (f.prototype.mapStr Str.anonymous).uncaptured →
      ∃ bytes' : List UInt8, bytes'.length = bytes.length ∧ ∀ c' : Collector,
        (c'.HasRoom p.memory → (load c' name bytes').1 ≠ .error .outOfMemory) ∧
        ((load c' name bytes').1 ≠ .error .outOfMemory →
          ∃ f', (load c' name bytes').1 = .ok f' ∧ f'.prototype.mapStr Str.anonymous = p) := by
  obtain ⟨a, ⟨tail, rfl⟩, hform, hp⟩ := form_of_load hf
  refine ⟨fun d p hq i hi hop => p.exists_child (hp d p hq).2 hi hop, fun p he => ?_⟩
  obtain ⟨b, hb, hlength⟩ := chunk_of_uncaptured hform he
  have hp := acceptable_of_uncaptured (acceptable_mapStr_iff.2 hp) he
  refine ⟨b ++ tail, by rw [List.length_append, List.length_append, hlength], fun c' => ?_⟩
  exact load_of_form (List.prefix_append b tail) hb hp

/-- A function of registers 0 to 2 and no upvalues that makes a closure. The upvalues of the closure
are a register and an upvalue, both of number `x`. -/
def capturing (x : UInt8) : Prototype :=
  .mk { (default : Body) with
    maxStack := 2
    code := [.ofABx .closure 0 0, .ofABC .ret 0 1 0] }
    [.mk { (default : Body) with
      code := [.ofABC .ret 0 1 0]
      upvalues := [⟨true, x, none⟩, ⟨false, x, none⟩] } []]

theorem expressible_capturing (x : UInt8) : (capturing x).Expressible (maxDepth + 1) := by
  refine Prototype.expressible_mk (by constructor <;> decide) (show 1 ≤ maxCount by decide)
    fun q hq => ?_
  rw [List.mem_singleton.1 hq]
  refine Prototype.expressible_mk ?_ (Nat.zero_le _) fun _ h => absurd h List.not_mem_nil
  exact ⟨show 1 ≤ maxCount by decide, Nat.zero_le _, show 2 ≤ maxCount by decide, Nat.zero_le _,
    Nat.zero_le _, fun _ h => absurd h List.not_mem_nil⟩

theorem acceptable_capturing (x : UInt8) : Acceptable (capturing x) :=
  acceptable_iff.2 ⟨(expressible_capturing x).shallow, rfl⟩

theorem load_capturing (x : UInt8) : ∃ f,
    (load (.new 1 Collector.unlimited) "@capturing" ((capturing x).encode false)).1 = .ok f ∧
      f.prototype.mapStr Str.anonymous = capturing x := by
  have hform : Form.chunk (capturing x) ((capturing x).encode false) :=
    chunk_encode false (expressible_capturing x)
  obtain ⟨hmem, hload⟩ := load_of_form (c := .new 1 Collector.unlimited) (List.prefix_refl _) hform
    (acceptable_capturing x)
  have hmemory : (capturing x).memory = (capturing 0).memory := rfl
  exact hload (hmem ⟨fun _ => rfl, by rw [hmemory]; decide⟩)

theorem load_of_uncaptured_capturing : ∃ f,
    (load (.new 1 Collector.unlimited) "@capturing" ((capturing 2).encode false)).1 = .ok f ∧
    (∃ q, f.prototype.children[0]? = some q) ∧
    ∃ bytes' f', (load (.new 1 Collector.unlimited) "@capturing" bytes').1 = .ok f' ∧
      f'.prototype.mapStr Str.anonymous = capturing 250 := by
  obtain ⟨f, hf, he⟩ := load_capturing 2
  obtain ⟨hchild, hother⟩ := load_of_uncaptured hf
  obtain ⟨bytes', -, hload⟩ := hother (capturing 250) (by rw [he]; rfl)
  have hcode : f.prototype.body.code = (capturing 2).body.code := by
    rw [← he, Prototype.body_mapStr]
    rfl
  refine ⟨f, hf, ?_, bytes', ?_⟩
  · have hmem : .ofABx .closure 0 0 ∈ f.prototype.body.code := by
      rw [hcode]
      exact List.mem_cons_self
    exact hchild 0 _ .root _ hmem (by decide)
  · obtain ⟨hmem, hload⟩ := hload (.new 1 Collector.unlimited)
    exact hload (hmem ⟨fun _ => rfl, by decide⟩)

/-- Neither upvalue of the closure is there in the function that makes it. -/
theorem exists_capture_not_found : ∃ f,
    (load (.new 1 Collector.unlimited) "@capturing" ((capturing 250).encode false)).1 = .ok f ∧
    ∃ i ∈ f.prototype.body.code, i.opcode? = some .closure ∧
      ∃ q, f.prototype.children[i.bx]? = some q ∧
        q.body.upvalues = [⟨true, 250, none⟩, ⟨false, 250, none⟩] ∧
        ∀ u ∈ q.body.upvalues, ¬u.FoundIn f.prototype.body := by
  obtain ⟨f, hf, -⟩ := load_capturing 250
  have hloaded : (load (.new 1 Collector.unlimited) "@capturing"
      ((capturing 250).encode false)).1.toOption.map (fun f =>
        (f.prototype.body.code, f.prototype.body.maxStack, f.prototype.body.upvalues,
          f.prototype.children.map fun q => q.body.upvalues)) =
      some ([.ofABx .closure 0 0, .ofABC .ret 0 1 0], 2, [],
        [[⟨true, 250, none⟩, ⟨false, 250, none⟩]]) := by
    decide +kernel
  rw [hf] at hloaded
  simp only [Except.toOption, Option.map_some, Option.some.injEq, Prod.mk.injEq] at hloaded
  obtain ⟨hcode, hstack, hupvalues, hchildren⟩ := hloaded
  obtain ⟨q, hq, hu⟩ := List.map_eq_singleton_iff.1 hchildren
  refine ⟨f, hf, .ofABx .closure 0 0, by rw [hcode]; exact List.mem_cons_self, by decide, q,
    by rw [hq]; rfl, hu, ?_⟩
  rw [hu]
  simp only [Upvalue.FoundIn, hstack, hupvalues]
  decide

end Chunk

end LuaData
