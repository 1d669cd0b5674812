import LuaData.Verification

namespace LuaData

/-- An instruction at `pc`, with the word after it where both belong together. -/
structure CodeUnit where
  pc : Nat
  leader : Instruction
  follower : Option Instruction
  deriving DecidableEq

namespace CodeUnit

def words (u : CodeUnit) : List Instruction := u.leader :: u.follower.toList

def cut : (pc : Nat) → List Instruction → List CodeUnit
  | _, [] => []
  | pc, i :: rest =>
    match Bounds.followerOf i with
    | none => ⟨pc, i, none⟩ :: cut (pc + 1) rest
    | some _ =>
      match rest with
      | [] => [⟨pc, i, none⟩]
      | j :: rest => ⟨pc, i, some j⟩ :: cut (pc + 2) rest

/-- Every word of the code is in one unit. -/
theorem flatMap_words_cut (pc : Nat) (code : List Instruction) :
    (cut pc code).flatMap words = code := by
  fun_induction cut pc code with
  | case1 => rfl
  | case2 pc i rest hi ih => rw [List.flatMap_cons, ih]; rfl
  | case3 pc i f hi => rfl
  | case4 pc i f hi j rest ih => rw [List.flatMap_cons, ih]; rfl

/-- A unit that verification finds no fault with: the leader is all right, and so is the follower
if there has to be one. -/
structure Accepted (bounds : Bounds) (u : CodeUnit) : Prop where
  leader : bounds.leaderFault u.pc u.leader = none
  follower : u.follower.isSome = (Bounds.followerOf u.leader).isSome
  followed : ∀ f j, Bounds.followerOf u.leader = some f → u.follower = some j →
    bounds.followerFault (u.pc + 1) f j = none

/-- The follower in a unit without a fault is what the leader asks for. -/
theorem Accepted.exists_follower {bounds : Bounds} {u : CodeUnit} {j : Instruction}
    (h : u.Accepted bounds) (hj : u.follower = some j) : ∃ f,
      Bounds.followerOf u.leader = some f ∧ bounds.followerFault (u.pc + 1) f j = none := by
  have hsome := h.follower
  rw [hj] at hsome
  obtain ⟨f, hf⟩ := Option.isSome_iff_exists.1 hsome.symm
  exact ⟨f, hf, h.followed f j hf hj⟩

/-- Code without a fault is cut into units without a fault. -/
theorem accepted_of_faultFrom {bounds : Bounds} {pc : Nat} {code : List Instruction}
    (h : bounds.faultFrom pc code = none) : ∀ u ∈ cut pc code, u.Accepted bounds := by
  fun_induction cut pc code with
  | case1 => simp
  | case2 pc i rest hi ih =>
    rw [Bounds.faultFrom] at h
    split at h
    · cases h
    rename_i hleader
    rw [hi] at h
    refine List.forall_mem_cons.2 ⟨⟨hleader, by rw [hi]; rfl, fun f j hf => ?_⟩, ih h⟩
    rw [hi] at hf
    cases hf
  | case3 pc i f hi =>
    -- a leader without its follower is a fault
    rw [Bounds.faultFrom] at h
    split at h
    · cases h
    rw [hi] at h
    cases h
  | case4 pc i f hi j rest ih =>
    rw [Bounds.faultFrom] at h
    split at h
    · cases h
    rename_i hleader
    rw [hi] at h
    dsimp only at h
    split at h
    · cases h
    rename_i hfollower
    refine List.forall_mem_cons.2 ⟨⟨hleader, by rw [hi]; rfl, fun f' j' hf' hj' => ?_⟩, ih h⟩
    rw [hi] at hf'
    cases hf'
    cases hj'
    exact hfollower

end CodeUnit

namespace Demand

variable {bounds : Bounds} {pc : Nat}

@[simp] theorem isMet_register {r : Nat} :
    (register r).isMet bounds pc = true ↔ r ≤ bounds.maxStack := decide_eq_true_iff

@[simp] theorem isMet_constant {k : Nat} :
    (constant k).isMet bounds pc = true ↔ k < bounds.constants := decide_eq_true_iff

@[simp] theorem isMet_upvalue {u : Nat} :
    (upvalue u).isMet bounds pc = true ↔ u < bounds.upvalues := decide_eq_true_iff

@[simp] theorem isMet_prototype {p : Nat} :
    (prototype p).isMet bounds pc = true ↔ p < bounds.prototypes := decide_eq_true_iff

@[simp] theorem isMet_flag {x : Nat} : (flag x).isMet bounds pc = true ↔ x ≤ 1 :=
  decide_eq_true_iff

@[simp] theorem isMet_jump {offset : Int} : (jump offset).isMet bounds pc = true ↔
    0 ≤ pc + 1 + offset ∧ pc + 1 + offset ≤ bounds.codeLength := decide_eq_true_iff

@[simp] theorem isMet_nonempty {first last : Nat} :
    (nonempty first last).isMet bounds pc = true ↔ first < last := decide_eq_true_iff

@[simp] theorem isMet_results {count : Nat} :
    (results count).isMet bounds pc = true ↔ count ≠ 1 := decide_eq_true_iff

@[simp] theorem isMet_leader : leader.isMet bounds pc = false := rfl

end Demand

theorem Bounds.unmet_eq_none_iff {bounds : Bounds} {pc : Nat} {o : Opcode} {ds : List Demand} :
    bounds.unmet pc o ds = none ↔ ∀ d ∈ ds, d.isMet bounds pc = true := by
  rw [unmet, Option.map_eq_none_iff, List.find?_eq_none]
  simp only [Bool.not_eq_true', Bool.not_eq_false]

theorem Bounds.leaderFault_eq_none_iff {bounds : Bounds} {pc : Nat} {i : Instruction} :
    bounds.leaderFault pc i = none ↔
      ∃ o, i.opcode? = some o ∧ ∀ d ∈ o.demands i, d.isMet bounds pc = true := by
  unfold leaderFault
  cases i.opcode? with
  | none => simp
  | some o => simp [unmet_eq_none_iff]

theorem Bounds.followerFault_eq_none_iff {bounds : Bounds} {pc : Nat} {f : Follower}
    {i : Instruction} : bounds.followerFault pc f i = none ↔
      i.opcode? = some f.opcode ∧ ∀ d ∈ f.demands i, d.isMet bounds pc = true := by
  unfold followerFault
  split
  · rename_i h
    simp [h, unmet_eq_none_iff]
  · rename_i h
    simp [h]

def Prototype.units (p : Prototype) : List CodeUnit := CodeUnit.cut 0 p.body.code

def Prototype.bounds (p : Prototype) : Bounds := p.body.bounds p.children.length

theorem Prototype.accepted_of_fault? {p : Prototype} (h : p.fault? = none) :
    ∀ u ∈ p.units, u.Accepted p.bounds := CodeUnit.accepted_of_faultFrom h

end LuaData
