import LuaData.Proofs.Verification.Units
import Mathlib.Tactic.SplitIfs

namespace LuaData

/-- Where control can go from an instruction at `pc`, as its operation is described. The word after
a LOADKX, and after a SETLIST that takes its count from there, is not an operation of its own. -/
def Opcode.next (pc : Nat) (i : Instruction) : Opcode → List Int
  | loadBool => if i.c = 0 then [pc + 1] else [pc + 2]
  | setList => if i.c = 0 then [pc + 2] else [pc + 1]
  | loadKX => [pc + 2]
  | eq | lt | le | test | testSet => [pc + 1, pc + 2]
  | jmp | forPrep => [pc + 1 + i.sbx]
  | forLoop | tForLoop => [pc + 1, pc + 1 + i.sbx]
  | extraArg => []
  | _ => [pc + 1]

def Instruction.next (pc : Nat) (i : Instruction) : List Int :=
  match i.opcode? with
  | none => []
  | some o => o.next pc i

def CodeUnit.next (u : CodeUnit) : List Int :=
  match u.follower with
  | none => u.leader.next u.pc
  | some j => u.leader.next u.pc ++ j.next (u.pc + 1)

/-- A LOADBOOL that skips a word but is itself the last one. -/
def CodeUnit.Overruns (u : CodeUnit) (codeLength : Nat) : Prop :=
  u.leader.opcode? = some .loadBool ∧ u.leader.c ≠ 0 ∧ u.pc + 1 = codeLength

instance (u : CodeUnit) (codeLength : Nat) : Decidable (u.Overruns codeLength) :=
  inferInstanceAs (Decidable (_ ∧ _ ∧ _))

theorem CodeUnit.end_le {pc : Nat} {code : List Instruction} {u : CodeUnit} (hu : u ∈ cut pc code) :
    u.pc + u.words.length ≤ pc + code.length := by
  fun_induction cut pc code with
  | case1 => cases hu
  | case2 pc i rest hi ih =>
    rcases List.mem_cons.1 hu with rfl | hu
    · simp [words]
    · have hle := ih hu
      rw [List.length_cons]
      omega
  | case3 pc i f hi =>
    rw [List.mem_singleton.1 hu]
    exact Nat.le_refl _
  | case4 pc i f hi j rest ih =>
    rcases List.mem_cons.1 hu with rfl | hu
    · simp [words]
    · have hle := ih hu
      rw [List.length_cons, List.length_cons]
      omega

def Bounds.Within (bounds : Bounds) (t : Int) : Prop := 0 ≤ t ∧ t ≤ bounds.codeLength

variable {bounds : Bounds} {pc : Nat} {i : Instruction}

theorem Bounds.forall_within_single {t : Int} :
    (∀ t' ∈ [t], bounds.Within t') ↔ 0 ≤ t ∧ t ≤ bounds.codeLength := by simp [Within]

theorem Bounds.forall_within_pair {t u : Int} : (∀ t' ∈ [t, u], bounds.Within t') ↔
    (0 ≤ t ∧ t ≤ bounds.codeLength) ∧ 0 ≤ u ∧ u ≤ bounds.codeLength := by simp [Within]

open Bounds

/-- An instruction leads to words of the code or its end, if there are as many words as belong to it
and as many as it skips. -/
theorem Opcode.within_next {o : Opcode} (hmet : ∀ d ∈ o.demands i, d.isMet bounds pc = true)
    (hpc : pc + 1 ≤ bounds.codeLength)
    (hpair : (o.follower i).isSome = true → pc + 2 ≤ bounds.codeLength)
    (hskip : o = .loadBool → i.c ≠ 0 → pc + 1 ≠ bounds.codeLength) :
    ∀ t ∈ o.next pc i, bounds.Within t := by
  cases o
  -- these are refused by themselves
  case tForLoop | extraArg => simp [demands] at hmet
  case jmp | forPrep | forLoop =>
    simp only [demands, List.forall_mem_cons, Demand.isMet_jump] at hmet
    simp only [next, forall_within_single, forall_within_pair]
    omega
  case loadBool =>
    have hskip := hskip rfl
    simp only [next]
    split_ifs <;> simp only [forall_within_single] <;> omega
  case setList =>
    simp only [follower] at hpair
    simp only [next]
    split_ifs at hpair ⊢ <;>
      simp only [Option.isSome_some, forall_const, forall_within_single] at hpair ⊢ <;>
      omega
  case loadKX | eq | lt | le | test | testSet =>
    have hle := hpair rfl
    simp only [next, forall_within_single, forall_within_pair]
    omega
  all_goals
    simp only [next, forall_within_single]
    omega

theorem Follower.within_next {f : Follower} {j : Instruction}
    (hj : bounds.followerFault pc f j = none) (hpc : pc + 1 ≤ bounds.codeLength) :
    ∀ t ∈ j.next pc, bounds.Within t := by
  obtain ⟨hop, hmet⟩ := Bounds.followerFault_eq_none_iff.1 hj
  rw [Instruction.next, hop]
  cases f with
  | extraArg | constantArg => simp [opcode, Opcode.next]
  | jump | loop =>
    simp only [demands, List.forall_mem_cons, Demand.isMet_jump] at hmet
    simp only [opcode, Opcode.next, forall_within_single, forall_within_pair]
    omega

theorem CodeUnit.Accepted.within_next {u : CodeUnit} (hu : u.Accepted bounds)
    (hend : u.pc + u.words.length ≤ bounds.codeLength) (hskip : ¬u.Overruns bounds.codeLength) :
    ∀ t ∈ u.next, bounds.Within t := by
  obtain ⟨o, hop, hmet⟩ := Bounds.leaderFault_eq_none_iff.1 hu.leader
  have hsome := hu.follower
  rw [Bounds.followerOf, hop, Option.bind_some] at hsome
  have hleader (hpair : u.follower.isSome = true → u.pc + 2 ≤ bounds.codeLength) :
      ∀ t ∈ u.leader.next u.pc, bounds.Within t := by
    rw [Instruction.next, hop]
    refine Opcode.within_next hmet (Nat.le_trans ?_ hend) (hsome ▸ hpair) ?_
    · exact Nat.add_le_add_left (Nat.succ_pos _) _
    · rintro rfl hc hpc
      exact hskip ⟨hop, hc, hpc⟩
  unfold CodeUnit.next
  cases hj : u.follower with
  | none =>
    rw [hj] at hleader
    exact hleader fun h => by cases h
  | some j =>
    have hlength : u.words.length = 2 := by rw [words, hj]; rfl
    rw [hlength] at hend
    obtain ⟨f, -, hfault⟩ := hu.exists_follower hj
    exact List.forall_mem_append.2 ⟨hleader fun _ => hend, Follower.within_next hfault hend⟩

/-- From a unit of a function without a fault, control goes to a word of the code or to its end,
unless the unit is a LOADBOOL at the end of the code that skips a word. -/
theorem Prototype.next_within_code {p : Prototype} (h : p.fault? = none) :
    ∀ u ∈ p.units, (∀ t ∈ u.next, 0 ≤ t ∧ t ≤ p.body.code.length) ↔
      ¬u.Overruns p.body.code.length := by
  intro u hu
  constructor
  · rintro hnext ⟨hop, hc, hpc⟩
    have hlone : u.follower = none := by
      have hnone : Bounds.followerOf u.leader = none := by rw [Bounds.followerOf, hop]; rfl
      have hsome := (accepted_of_fault? h u hu).follower
      rwa [hnone, Option.isSome_none, Option.isSome_eq_false_iff,
        Option.isNone_iff_eq_none] at hsome
    have hmem : (u.pc + 2 : Int) ∈ u.next := by
      simp [CodeUnit.next, hlone, Instruction.next, hop, Opcode.next, hc]
    have hle := (hnext _ hmem).2
    omega
  · intro hskip
    have hend := CodeUnit.end_le hu
    rw [Nat.zero_add] at hend
    exact (accepted_of_fault? h u hu).within_next hend hskip

/-- A function that tests, loops both ways, takes a count from a word of its own and leaves a word
out. -/
def Prototype.branching : Prototype :=
  .mk { (default : Body) with
    maxStack := 4
    code := [.ofABC .loadBool 0 1 1, .ofABC .loadBool 0 0 0, .ofABC .test 0 0 1, .ofAsBx .jmp 0 7,
      .ofAsBx .forPrep 0 0, .ofAsBx .forLoop 0 (-1), .ofABC .tForCall 0 0 1,
      .ofAsBx .tForLoop 2 (-2), .ofABC .setList 0 1 0, .ofAx .extraArg 2, .ofABC .ret 0 1 0] } []

theorem Prototype.next_within_code_branching : branching.fault? = none ∧
    ∀ u ∈ branching.units, ∀ t ∈ u.next, 0 ≤ t ∧ t ≤ branching.body.code.length :=
  have h : branching.fault? = none := by decide
  ⟨h, fun u hu => (next_within_code h u hu).2 (by revert u; decide)⟩

/-- A LOADBOOL at the end of the code that skips a word: there is none, and verification does not
mind. -/
theorem Prototype.next_beyond_end : ¬∀ p : Prototype, p.fault? = none →
    ∀ u ∈ p.units, ∀ t ∈ u.next, 0 ≤ t ∧ t ≤ p.body.code.length := by
  intro h
  have hle := h (.mk { (default : Body) with code := [.ofABC .loadBool 0 0 1] } []) (by decide)
    ⟨0, .ofABC .loadBool 0 0 1, none⟩ (by decide) 2 (by decide)
  exact absurd hle.2 (by decide)

end LuaData
