import LuaData.Verification

namespace LuaData

def Value.isConstant : Value → Bool
  | .nil | .boolean _ | .number _ | .string _ => true
  | _ => false

/-- Line numbers and program counters that make sense, and constants that are known beforehand. -/
structure Body.Plausible (f : Body) : Prop where
  lineDefined : 0 ≤ f.lineDefined
  lastLineDefined : 0 ≤ f.lastLineDefined
  locals : ∀ l ∈ f.locals, 0 ≤ l.startPc ∧ 0 ≤ l.endPc
  constants : ∀ k ∈ f.constants, k.isConstant = true

theorem Body.Plausible.mapStr {b : Body} (hb : b.Plausible) (f : Str → Str) :
    (b.mapStr f).Plausible where
  lineDefined := hb.lineDefined
  lastLineDefined := hb.lastLineDefined
  locals l hl := by
    obtain ⟨l, hm, rfl⟩ := List.mem_map.1 hl
    exact hb.locals l hm
  constants k hk := by
    obtain ⟨k, hm, rfl⟩ := List.mem_map.1 hk
    have hconst := hb.constants k hm
    cases k <;> first | rfl | exact hconst

/-- Verification does not look at strings. -/
theorem Body.fault?_mapStr (b : Body) (f : Str → Str) (childCount : Nat) :
    (b.mapStr f).fault? childCount = b.fault? childCount := by
  simp only [Body.fault?, Body.bounds, Body.mapStr, List.length_map]

namespace Prototype

/-- What holds of a function as soon as it holds of those nested in it holds of every tree. -/
@[elab_as_elim, induction_eliminator]
theorem induction {motive : Prototype → Prop}
    (mk : ∀ body children, (∀ p ∈ children, motive p) → motive (mk body children))
    (p : Prototype) : motive p :=
  @Prototype.rec motive (fun ps => ∀ p ∈ ps, motive p) mk (fun _ h => absurd h List.not_mem_nil)
    (fun _ _ hp hps => List.forall_mem_cons.2 ⟨hp, hps⟩) p

/-- `q` lies `d` levels deep in a prototype, which itself has depth 0. -/
inductive Occurs (q : Prototype) : Nat → Prototype → Prop
  | root : Occurs q 0 q
  | child {d : Nat} {p r : Prototype} : r ∈ p.children → Occurs q d r → Occurs q (d + 1) p

theorem mapStrAll_eq_map (f : Str → Str) (ps : List Prototype) :
    mapStrAll f ps = ps.map (mapStr f) := by
  induction ps with
  | nil => rfl
  | cons p ps ih => rw [mapStrAll, ih, List.map_cons]

theorem body_mapStr (f : Str → Str) (p : Prototype) : (p.mapStr f).body = p.body.mapStr f := by
  cases p
  rw [mapStr]
  rfl

theorem children_mapStr (f : Str → Str) (p : Prototype) :
    (p.mapStr f).children = p.children.map (mapStr f) := by
  cases p
  rw [mapStr, ← mapStrAll_eq_map]
  rfl

theorem fault?_mapStr (f : Str → Str) (p : Prototype) : (p.mapStr f).fault? = p.fault? := by
  rw [fault?, fault?, body_mapStr, children_mapStr, Body.fault?_mapStr, List.length_map]

theorem Occurs.of_mapStr {f : Str → Str} {q p : Prototype} {d : Nat}
    (hq : Occurs q d (p.mapStr f)) : ∃ q', q = q'.mapStr f ∧ Occurs q' d p := by
  induction d generalizing p with
  | zero =>
    cases hq
    exact ⟨p, rfl, .root⟩
  | succ d ih =>
    obtain _ | ⟨hr, hq⟩ := hq
    rw [children_mapStr] at hr
    obtain ⟨r, hm, rfl⟩ := List.mem_map.1 hr
    obtain ⟨q', he, ho⟩ := ih hq
    exact ⟨q', he, .child hm ho⟩

def Shallow (levels : Nat) (p : Prototype) : Prop := ∀ d q, Occurs q d p → d < levels

theorem Shallow.children {levels : Nat} {p q : Prototype} (hp : p.Shallow (levels + 1))
    (hq : q ∈ p.children) : q.Shallow levels := fun d r hr =>
  Nat.lt_of_succ_lt_succ (hp (d + 1) r (.child hq hr))

theorem shallow_mk_iff {levels : Nat} {body : Body} {children : List Prototype} :
    Shallow (levels + 1) (mk body children) ↔ ∀ p ∈ children, Shallow levels p := by
  refine ⟨fun h p hp => h.children hp, fun hchildren d q hq => ?_⟩
  obtain _ | ⟨hr, hq⟩ := hq
  · exact Nat.succ_pos _
  · exact Nat.succ_lt_succ (hchildren _ hr _ q hq)

def Sound (levels : Nat) (p : Prototype) : Prop :=
  ∀ d q, Occurs q d p → d < levels ∧ q.fault? = none ∧ q.body.Plausible

theorem Sound.mapStr {levels : Nat} {p : Prototype} (hp : Sound levels p) (f : Str → Str) :
    Sound levels (p.mapStr f) := by
  intro d q hq
  obtain ⟨q', rfl, ho⟩ := hq.of_mapStr
  obtain ⟨hd, hfault, hbody⟩ := hp d q' ho
  rw [fault?_mapStr, body_mapStr]
  exact ⟨hd, hfault, hbody.mapStr f⟩

theorem sound_mk {levels : Nat} {body : Body} {children : List Prototype}
    (hfault : body.fault? children.length = none) (hbody : body.Plausible)
    (hchildren : ∀ p ∈ children, Sound levels p) : Sound (levels + 1) (mk body children) := by
  intro d q hq
  obtain _ | ⟨hr, hq⟩ := hq
  · exact ⟨Nat.succ_pos _, hfault, hbody⟩
  · obtain ⟨hd, hrest⟩ := hchildren _ hr _ q hq
    exact ⟨Nat.succ_lt_succ hd, hrest⟩

end Prototype

end LuaData
