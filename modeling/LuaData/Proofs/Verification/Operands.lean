import LuaData.Proofs.Verification.Units
import Mathlib.Tactic.SplitIfs

namespace LuaData

/-- The registers and the entries of a function's tables that an operation names. -/
structure Operands where
  registers : List Nat := []
  constants : List Nat := []
  upvalues : List Nat := []
  prototypes : List Nat := []
  deriving DecidableEq

namespace Operands

def append (o o' : Operands) : Operands where
  registers := o.registers ++ o'.registers
  constants := o.constants ++ o'.constants
  upvalues := o.upvalues ++ o'.upvalues
  prototypes := o.prototypes ++ o'.prototypes

instance : Append Operands := ⟨append⟩

def ofRegisters (rs : List Nat) : Operands := { registers := rs }

def ofConstant (k : Nat) : Operands := { constants := [k] }

def ofUpvalue (u : Nat) : Operands := { upvalues := [u] }

def ofPrototype (p : Nat) : Operands := { prototypes := [p] }

def rk (x : Nat) : Operands :=
  match RK.ofOperand x with
  | .register r => ofRegisters [r]
  | .constant k => ofConstant k

/-- The registers from `first` on of which there are `x - 1`. Where `x = 0` leaves their number
open, only the first one is sure to be named. -/
def values (first x : Nat) : Operands :=
  ofRegisters (if x = 0 then [first] else List.range' first (x - 1))

def span (first last : Nat) : Operands := ofRegisters (List.range' first (last + 1 - first))

structure Within (bounds : Bounds) (o : Operands) : Prop where
  registers : ∀ r ∈ o.registers, r ≤ bounds.maxStack
  constants : ∀ k ∈ o.constants, k < bounds.constants
  upvalues : ∀ u ∈ o.upvalues, u < bounds.upvalues
  prototypes : ∀ p ∈ o.prototypes, p < bounds.prototypes

end Operands

/-- What an operation names, term by term as it is described. -/
def Opcode.operands (i : Instruction) : Opcode → Operands
  | move | unm | not | len => .ofRegisters [i.a, i.b]
  | loadK => .ofRegisters [i.a] ++ .ofConstant i.bx
  | loadKX | loadBool | newTable | test => .ofRegisters [i.a]
  | loadNil => .span i.a (i.a + i.b)
  | getUpval | setUpval => .ofRegisters [i.a] ++ .ofUpvalue i.b
  | getTabUp => .ofRegisters [i.a] ++ .ofUpvalue i.b ++ .rk i.c
  | getTable => .ofRegisters [i.a, i.b] ++ .rk i.c
  | setTabUp => .ofUpvalue i.a ++ .rk i.b ++ .rk i.c
  | setTable | add | sub | mul | div | mod | pow => .ofRegisters [i.a] ++ .rk i.b ++ .rk i.c
  | self => .ofRegisters [i.a + 1, i.b, i.a] ++ .rk i.c
  | concat => .ofRegisters [i.a] ++ .span i.b i.c
  | jmp => if i.a = 0 then {} else .ofRegisters [i.a - 1]
  | eq | lt | le => .rk i.b ++ .rk i.c
  | testSet => .ofRegisters [i.a, i.b]
  | call => .values i.a i.c ++ .ofRegisters [i.a] ++ .span (i.a + 1) (i.a + i.b - 1)
  | tailCall => .ofRegisters [i.a] ++ .span (i.a + 1) (i.a + i.b - 1)
  | ret | vararg => .values i.a i.b
  | forLoop => .span i.a (i.a + 3)
  | forPrep => .ofRegisters [i.a, i.a + 2]
  | tForCall => .span i.a (i.a + 2) ++ .span (i.a + 3) (i.a + 2 + i.c)
  | tForLoop => .ofRegisters [i.a + 1, i.a]
  | setList => .span i.a (i.a + i.b)
  | closure => .ofRegisters [i.a] ++ .ofPrototype i.bx
  | extraArg => {}

def Instruction.operands (i : Instruction) : Operands :=
  match i.opcode? with
  | none => {}
  | some o => o.operands i

/-- What a unit names: its words by themselves, and LOADKX the constant in the word after it. -/
def CodeUnit.operands (u : CodeUnit) : Operands :=
  let named := u.leader.operands
  match u.follower with
  | none => named
  | some j =>
    named ++ j.operands ++ if u.leader.opcode? = some .loadKX then .ofConstant j.ax else {}

namespace Operands

variable {bounds : Bounds} {o o' : Operands}

@[simp] theorem within_empty : Within bounds {} := ⟨by simp, by simp, by simp, by simp⟩

@[simp] theorem within_append : Within bounds (o ++ o') ↔ Within bounds o ∧ Within bounds o' := by
  have happ : o ++ o' = append o o' := rfl
  rw [happ]
  constructor
  · rintro ⟨hr, hk, hu, hp⟩
    simp only [append, List.forall_mem_append] at hr hk hu hp
    exact ⟨⟨hr.1, hk.1, hu.1, hp.1⟩, hr.2, hk.2, hu.2, hp.2⟩
  · rintro ⟨h, h'⟩
    exact {
      registers := List.forall_mem_append.2 ⟨h.registers, h'.registers⟩
      constants := List.forall_mem_append.2 ⟨h.constants, h'.constants⟩
      upvalues := List.forall_mem_append.2 ⟨h.upvalues, h'.upvalues⟩
      prototypes := List.forall_mem_append.2 ⟨h.prototypes, h'.prototypes⟩ }

@[simp] theorem within_ofRegisters {rs : List Nat} :
    Within bounds (ofRegisters rs) ↔ ∀ r ∈ rs, r ≤ bounds.maxStack :=
  ⟨fun h => h.registers, fun h => ⟨h, by simp [ofRegisters], by simp [ofRegisters],
    by simp [ofRegisters]⟩⟩

@[simp] theorem within_ofConstant {k : Nat} :
    Within bounds (ofConstant k) ↔ k < bounds.constants :=
  ⟨fun h => h.constants k (List.mem_singleton_self k), fun h =>
    ⟨by simp [ofConstant], by simpa [ofConstant] using h, by simp [ofConstant],
      by simp [ofConstant]⟩⟩

@[simp] theorem within_ofUpvalue {u : Nat} : Within bounds (ofUpvalue u) ↔ u < bounds.upvalues :=
  ⟨fun h => h.upvalues u (List.mem_singleton_self u), fun h =>
    ⟨by simp [ofUpvalue], by simp [ofUpvalue], by simpa [ofUpvalue] using h, by simp [ofUpvalue]⟩⟩

@[simp] theorem within_ofPrototype {p : Nat} :
    Within bounds (ofPrototype p) ↔ p < bounds.prototypes :=
  ⟨fun h => h.prototypes p (List.mem_singleton_self p), fun h =>
    ⟨by simp [ofPrototype], by simp [ofPrototype], by simp [ofPrototype],
      by simpa [ofPrototype] using h⟩⟩

/-- The demand on an operand is what it names. -/
theorem within_rk (pc : Nat) {x : Nat} :
    Within bounds (rk x) ↔ (Demand.rk x).isMet bounds pc = true := by
  unfold rk Demand.rk
  cases RK.ofOperand x <;> simp [Demand.isMet]

/-- Of a span it is enough that the last register is there. -/
@[simp] theorem within_span {first last : Nat} :
    Within bounds (span first last) ↔ (first ≤ last → last ≤ bounds.maxStack) := by
  simp only [span, within_ofRegisters, List.mem_range'_1]
  constructor
  · exact fun h hle => h last (by omega)
  · intro h r hr
    have hlast := h (by omega)
    omega

@[simp] theorem within_values {first x : Nat} : Within bounds (values first x) ↔
    (x = 0 → first ≤ bounds.maxStack) ∧ (2 ≤ x → first + x - 2 ≤ bounds.maxStack) := by
  unfold values
  split
  · simp_all
  · simp only [within_ofRegisters, List.mem_range'_1]
    constructor
    · exact fun h => ⟨fun h0 => by omega, fun h2 => h (first + x - 2) (by omega)⟩
    · intro h r hr
      have hlast := h.2 (by omega)
      omega

end Operands

open Operands

variable {bounds : Bounds} {pc : Nat} {i : Instruction}

/-- The demands on an instruction cover what its operation names. -/
theorem Opcode.within_operands (o : Opcode) (h : ∀ d ∈ o.demands i, d.isMet bounds pc = true) :
    Within bounds (o.operands i) := by
  cases o
  case jmp =>
    simp only [demands, List.forall_mem_cons, Demand.isMet_register] at h
    rw [operands]
    split_ifs
    · exact within_empty
    · simp only [within_ofRegisters, List.mem_singleton, forall_eq]
      omega
  -- a number of values is encoded with 1 added, and 0 leaves it open
  case call | tailCall | setList =>
    simp only [demands, List.forall_mem_cons, Demand.isMet_register] at h
    simp only [operands, within_append, within_ofRegisters, within_span, within_values,
      List.mem_singleton, forall_eq]
    split_ifs at h <;> omega
  case ret | vararg =>
    simp only [demands] at h
    simp only [operands, within_values]
    split_ifs at h <;> simp at h <;> omega
  all_goals
    simp only [demands, operands, within_append, within_ofRegisters, within_rk pc, within_span,
      within_ofConstant, within_ofUpvalue, within_ofPrototype, List.forall_mem_cons,
      Demand.isMet_register, Demand.isMet_constant, Demand.isMet_upvalue,
      Demand.isMet_prototype] at h ⊢
    simp_all
  all_goals omega

/-- The demands on a follower cover what it names, by itself and for its leader. -/
theorem Follower.within_operands {f : Follower} {j : Instruction}
    (h : bounds.followerFault pc f j = none) :
    Within bounds j.operands ∧ (f = .constantArg → j.ax < bounds.constants) := by
  obtain ⟨hop, hmet⟩ := Bounds.followerFault_eq_none_iff.1 h
  rw [Instruction.operands, hop]
  cases f with
  | extraArg => exact ⟨within_empty, fun hf => by cases hf⟩
  | constantArg =>
    simp only [demands, List.forall_mem_cons, Demand.isMet_constant] at hmet
    exact ⟨within_empty, fun _ => hmet.1⟩
  | jump => exact ⟨Opcode.within_operands .jmp hmet, fun hf => by cases hf⟩
  | loop =>
    simp only [demands, List.forall_mem_cons, Demand.isMet_register] at hmet
    refine ⟨?_, fun hf => by cases hf⟩
    simp only [opcode, Opcode.operands, within_ofRegisters, List.forall_mem_cons]
    exact ⟨hmet.1, hmet.2.1, fun _ hr => absurd hr List.not_mem_nil⟩

theorem CodeUnit.Accepted.within_operands {u : CodeUnit} (h : u.Accepted bounds) :
    Within bounds u.operands := by
  obtain ⟨o, hop, hmet⟩ := Bounds.leaderFault_eq_none_iff.1 h.leader
  have hleader : Within bounds u.leader.operands := by
    rw [Instruction.operands, hop]
    exact o.within_operands hmet
  unfold CodeUnit.operands
  cases hj : u.follower with
  | none => exact hleader
  | some j =>
    obtain ⟨f, hf, hfault⟩ := h.exists_follower hj
    obtain ⟨hfollower, hconstant⟩ := Follower.within_operands hfault
    simp only [within_append]
    refine ⟨⟨hleader, hfollower⟩, ?_⟩
    split_ifs with hkx
    · rw [Bounds.followerOf, hkx] at hf
      cases hf
      exact within_ofConstant.2 (hconstant rfl)
    · exact within_empty

theorem CodeUnit.Accepted.opcode_isSome {u : CodeUnit} (h : u.Accepted bounds) :
    ∀ i ∈ u.words, i.opcode?.isSome = true := by
  obtain ⟨o, hop, -⟩ := Bounds.leaderFault_eq_none_iff.1 h.leader
  refine List.forall_mem_cons.2 ⟨by rw [hop]; rfl, fun j hj => ?_⟩
  obtain ⟨f, -, hfault⟩ := h.exists_follower (Option.mem_toList.1 hj)
  rw [(Bounds.followerFault_eq_none_iff.1 hfault).1]
  rfl

/-- In a function without a fault every word belongs to one unit, every unit is complete, and
whatever its operations name is there. -/
theorem Prototype.units_within_bounds {p : Prototype} (h : p.fault? = none) :
    p.units.flatMap CodeUnit.words = p.body.code ∧
      ∀ u ∈ p.units, (∀ i ∈ u.words, i.opcode?.isSome = true) ∧
        u.follower.isSome = (Bounds.followerOf u.leader).isSome ∧
        u.operands.Within p.bounds := by
  refine ⟨CodeUnit.flatMap_words_cut 0 p.body.code, fun u hu => ?_⟩
  have hu := accepted_of_fault? h u hu
  exact ⟨hu.opcode_isSome, hu.follower, hu.within_operands⟩

def Prototype.crowded : Prototype :=
  .mk { (default : Body) with
    maxStack := 5
    constants := [.nil, .number ⟨0⟩]
    code := [.ofABC .loadKX 0 0 0, .ofAx .extraArg 1, .ofABC .concat 1 2 5, .ofABC .call 1 5 6,
      .ofABC .tForCall 2 0 1, .ofAsBx .tForLoop 4 (-2), .ofABC .eq 1 257 5,
      .ofAsBx .jmp 5 (-8)] } []

theorem Prototype.units_within_bounds_crowded : crowded.fault? = none ∧
    ∀ u ∈ crowded.units, u.operands.Within crowded.bounds :=
  have h : crowded.fault? = none := by decide
  ⟨h, fun u hu => ((units_within_bounds h).2 u hu).2.2⟩

end LuaData
