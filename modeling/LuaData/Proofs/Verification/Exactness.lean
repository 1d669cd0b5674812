import LuaData.Proofs.Verification.Flow
import LuaData.Proofs.Verification.Operands
import Mathlib.Tactic.ByContra
import Mathlib.Tactic.MkIffOfInductiveProp

namespace LuaData

def Opcode.flags (i : Instruction) : Opcode → List Nat
  | loadBool => [i.b, i.c]
  | eq | lt | le => [i.a]
  | test | testSet => [i.c]
  | _ => []

def Opcode.targets (pc : Nat) (i : Instruction) : Opcode → List Int
  | jmp | forLoop | forPrep | tForLoop => [pc + 1 + i.sbx]
  | _ => []

@[mk_iff]
structure Opcode.Obeys (bounds : Bounds) (pc : Nat) (i : Instruction) (o : Opcode) : Prop where
  operands : (o.operands i).Within bounds
  flags : ∀ x ∈ o.flags i, x ≤ 1
  targets : ∀ t ∈ o.targets pc i, bounds.Within t
  /-- A JMP names a register, also when it closes no upvalue. -/
  closes : o = .jmp → i.a ≤ bounds.maxStack
  /-- A CONCAT has two values at least. -/
  nonempty : o = .concat → i.b < i.c
  /-- A VARARG has results. -/
  results : o = .vararg → i.b ≠ 1

variable {bounds : Bounds} {pc : Nat} {i j : Instruction} {o : Opcode} {f : Fault}
  {code rest ws : List Instruction}

theorem Opcode.obeys_of_met (h : ∀ d ∈ o.demands i, d.isMet bounds pc = true) :
    o.Obeys bounds pc i where
  operands := o.within_operands h
  flags := by
    cases o
    case loadBool | eq | lt | le | test | testSet =>
      simp only [demands, List.forall_mem_cons, Demand.isMet_flag] at h
      simp only [flags, List.forall_mem_cons]
      simp [h]
    all_goals exact fun _ hx => absurd hx List.not_mem_nil
  targets := by
    cases o
    case jmp | forLoop | forPrep =>
      simp only [demands, List.forall_mem_cons, Demand.isMet_jump] at h
      simp only [targets, Bounds.forall_within_single]
      simp [h]
    case tForLoop => simp [demands] at h
    all_goals exact fun _ hx => absurd hx List.not_mem_nil
  closes := by
    rintro rfl
    simp only [demands, List.forall_mem_cons, Demand.isMet_register] at h
    exact h.1
  nonempty := by
    rintro rfl
    simp only [demands, List.forall_mem_cons, Demand.isMet_nonempty] at h
    exact h.2.2.2.1
  results := by
    rintro rfl hb
    simp [demands, hb] at h

open Operands Bounds in
theorem Opcode.met_of_obeys (hhead : o ≠ .tForLoop ∧ o ≠ .extraArg) (h : o.Obeys bounds pc i) :
    ∀ d ∈ o.demands i, d.isMet bounds pc = true := by
  obtain ⟨hoperands, hflags, htargets, hcloses, hnonempty, hresults⟩ := h
  cases o
  case tForLoop => exact absurd rfl hhead.1
  case extraArg => exact absurd rfl hhead.2
  case jmp | forLoop | forPrep =>
    simp only [operands, within_ofRegisters, within_span, List.forall_mem_cons] at hoperands
    simp only [targets, forall_within_single] at htargets
    simp [demands]
    simp at hcloses
    omega
  -- the last register of a span is in range, and so the others are
  case call | tailCall | setList | ret | vararg =>
    simp only [operands, within_append, within_ofRegisters, within_span, within_values,
      List.mem_singleton, forall_eq] at hoperands
    simp only [demands]
    split_ifs <;> simp <;> simp at hresults <;> omega
  all_goals
    simp only [operands, flags, within_append, within_ofRegisters, within_rk pc, within_span,
      within_ofConstant, within_ofUpvalue, within_ofPrototype] at hoperands hflags
    simp only [demands, List.forall_mem_cons, Demand.isMet_register, Demand.isMet_constant,
      Demand.isMet_upvalue, Demand.isMet_prototype, Demand.isMet_flag, Demand.isMet_nonempty]
    simp_all
  all_goals omega

/-- The demands on an instruction are its rules. Those on what can only follow are never met. -/
theorem Opcode.met_iff : (∀ d ∈ o.demands i, d.isMet bounds pc = true) ↔
    (o ≠ .tForLoop ∧ o ≠ .extraArg) ∧ o.Obeys bounds pc i := by
  refine ⟨fun h => ⟨⟨?_, ?_⟩, obeys_of_met h⟩, fun ⟨hhead, h⟩ => met_of_obeys hhead h⟩
  all_goals
    rintro rfl
    simp [demands] at h

/-- The demands on a follower are the rules of its operation, and that the constant of a LOADKX
exists. -/
theorem Follower.met_iff {follower : Follower} :
    (∀ d ∈ follower.demands j, d.isMet bounds pc = true) ↔
      follower.opcode.Obeys bounds pc j ∧
        (follower = .constantArg → j.ax < bounds.constants) := by
  have hjump : (∀ d ∈ Opcode.jmp.demands j, d.isMet bounds pc = true) ↔
      Opcode.jmp.Obeys bounds pc j := Opcode.met_iff.trans (and_iff_right (by decide))
  cases follower with
  | jump => exact hjump.trans (and_iff_left nofun).symm
  | extraArg | constantArg | loop =>
    simp [demands, opcode, Opcode.obeys_iff, Opcode.operands, Opcode.flags, Opcode.targets,
      Bounds.Within, and_assoc]

def Opcode.Leads (i : Instruction) (o : Opcode) : Prop :=
  o ∈ [loadKX, eq, lt, le, test, testSet, tForCall] ∨ o = .setList ∧ i.c = 0

namespace Bounds

def Obeyed (bounds : Bounds) (pc : Nat) (i : Instruction) (o : Opcode) : Prop :=
  i.opcode? = some o ∧ o.Obeys bounds pc i

/-- The words at `pc` are an instruction that is complete by itself, or one with the word that has
to follow it, and obey the rules. -/
inductive UnitAt (bounds : Bounds) (pc : Nat) : List Instruction → Prop
  | single {i : Instruction} {o : Opcode} (hi : bounds.Obeyed pc i o) (hlone : ¬o.Leads i)
      (hhead : o ≠ .tForLoop ∧ o ≠ .extraArg) : UnitAt bounds pc [i]
  | constant {i j : Instruction} (hi : bounds.Obeyed pc i .loadKX)
      (hj : bounds.Obeyed (pc + 1) j .extraArg) (hax : j.ax < bounds.constants) :
      UnitAt bounds pc [i, j]
  | count {i j : Instruction} (hi : bounds.Obeyed pc i .setList) (hc : i.c = 0)
      (hj : bounds.Obeyed (pc + 1) j .extraArg) : UnitAt bounds pc [i, j]
  | test {i j : Instruction} {o : Opcode} (ho : o ∈ [Opcode.eq, .lt, .le, .test, .testSet])
      (hi : bounds.Obeyed pc i o) (hj : bounds.Obeyed (pc + 1) j .jmp) : UnitAt bounds pc [i, j]
  | loop {i j : Instruction} (hi : bounds.Obeyed pc i .tForCall)
      (hj : bounds.Obeyed (pc + 1) j .tForLoop) : UnitAt bounds pc [i, j]

inductive Cut (bounds : Bounds) : Nat → List Instruction → Prop
  | nil {pc : Nat} : Cut bounds pc []
  | unit {pc : Nat} {ws rest : List Instruction} (hu : bounds.UnitAt pc ws)
      (hrest : Cut bounds (pc + ws.length) rest) : Cut bounds pc (ws ++ rest)

theorem leaderFault_eq_none_iff_obeyed : bounds.leaderFault pc i = none ↔
    ∃ o, (o ≠ .tForLoop ∧ o ≠ .extraArg) ∧ bounds.Obeyed pc i o := by
  rw [leaderFault_eq_none_iff]
  refine exists_congr fun o => ?_
  rw [Opcode.met_iff, Obeyed, and_left_comm]

theorem followerFault_eq_none_iff_obeyed {follower : Follower} :
    bounds.followerFault pc follower j = none ↔ bounds.Obeyed pc j follower.opcode ∧
      (follower = .constantArg → j.ax < bounds.constants) := by
  rw [followerFault_eq_none_iff, Follower.met_iff, Obeyed, and_assoc]

theorem followerOf_eq_none_iff (hop : i.opcode? = some o) :
    followerOf i = none ↔ ¬o.Leads i := by
  rw [followerOf, hop, Option.bind_some]
  cases o <;> simp [Opcode.follower, Opcode.Leads]

theorem leads_of_followerOf {follower : Follower} (hop : i.opcode? = some o)
    (hfollower : followerOf i = some follower) : o.Leads i := by
  by_contra hlone
  rw [(followerOf_eq_none_iff hop).2 hlone] at hfollower
  cases hfollower

theorem unitAt_single_iff :
    bounds.UnitAt pc [i] ↔ bounds.leaderFault pc i = none ∧ followerOf i = none := by
  rw [leaderFault_eq_none_iff_obeyed]
  constructor
  · rintro ⟨hi, hlone, hhead⟩
    exact ⟨⟨_, hhead, hi⟩, (followerOf_eq_none_iff hi.1).2 hlone⟩
  · rintro ⟨⟨o, hhead, hi⟩, hnone⟩
    exact .single hi ((followerOf_eq_none_iff hi.1).1 hnone) hhead

theorem unitAt_pair_iff : bounds.UnitAt pc [i, j] ↔ bounds.leaderFault pc i = none ∧
    ∃ follower, followerOf i = some follower ∧
      bounds.followerFault (pc + 1) follower j = none := by
  simp only [leaderFault_eq_none_iff_obeyed, followerFault_eq_none_iff_obeyed]
  have hof : ∀ {o}, bounds.Obeyed pc i o → followerOf i = o.follower i := fun hi => by
    rw [followerOf, hi.1, Option.bind_some]
  constructor
  · intro hu
    cases hu with
    | constant hi hj hax => exact ⟨⟨_, by decide, hi⟩, .constantArg, hof hi, hj, fun _ => hax⟩
    | count hi hc hj =>
      exact ⟨⟨_, by decide, hi⟩, .extraArg, (hof hi).trans (if_pos hc), hj, fun h => by cases h⟩
    | test ho hi hj =>
      refine ⟨⟨_, ?_, hi⟩, .jump, (hof hi).trans ?_, hj, fun h => by cases h⟩
      · revert ho; rename_i o; cases o <;> decide
      · revert ho; rename_i o; cases o <;> simp [Opcode.follower]
    | loop hi hj => exact ⟨⟨_, by decide, hi⟩, .loop, hof hi, hj, fun h => by cases h⟩
  · rintro ⟨⟨o, -, hi⟩, follower, hfollower, hj, hax⟩
    rw [hof hi] at hfollower
    cases o
    case loadKX =>
      cases hfollower
      exact .constant hi hj (hax rfl)
    case setList =>
      obtain ⟨hc, hf⟩ := Option.ite_none_right_eq_some.1 hfollower
      cases hf
      exact .count hi hc hj
    case tForCall =>
      cases hfollower
      exact .loop hi hj
    case eq | lt | le | test | testSet =>
      cases hfollower
      exact .test (by decide) hi hj
    all_goals cases hfollower

theorem UnitAt.cases_words (hu : bounds.UnitAt pc ws) :
    (∃ i, ws = [i]) ∨ ∃ i j, ws = [i, j] := by
  cases hu with
  | single => exact .inl ⟨_, rfl⟩
  | constant | count | test | loop => exact .inr ⟨_, _, rfl⟩

/-- The scan steps over a unit that obeys the rules. -/
theorem UnitAt.faultFrom_append (hu : bounds.UnitAt pc ws) (rest : List Instruction) :
    bounds.faultFrom pc (ws ++ rest) = bounds.faultFrom (pc + ws.length) rest := by
  obtain ⟨i, rfl⟩ | ⟨i, j, rfl⟩ := hu.cases_words
  · obtain ⟨hleader, hnone⟩ := unitAt_single_iff.1 hu
    rw [List.singleton_append, faultFrom, hleader, hnone, List.length_singleton]
  · obtain ⟨hleader, follower, hfollower, hfault⟩ := unitAt_pair_iff.1 hu
    rw [List.cons_append, List.singleton_append, faultFrom, hleader, hfollower]
    dsimp only
    rw [hfault]
    rfl

theorem Cut.faultFrom_append {us : List Instruction} (hus : bounds.Cut pc us)
    (rest : List Instruction) :
    bounds.faultFrom pc (us ++ rest) = bounds.faultFrom (pc + us.length) rest := by
  induction hus with
  | nil => rfl
  | unit hu _ ih =>
    rw [List.append_assoc, hu.faultFrom_append, ih, List.length_append, Nat.add_assoc]

inductive FaultAt (bounds : Bounds) (pc : Nat) : List Instruction → Fault → Prop
  | leader {i : Instruction} {rest : List Instruction} {f : Fault}
      (hi : bounds.leaderFault pc i = some f) : FaultAt bounds pc (i :: rest) f
  | unfinished {i : Instruction} {follower : Follower} (hi : bounds.leaderFault pc i = none)
      (hfollower : followerOf i = some follower) :
      FaultAt bounds pc [i] ⟨pc, i.opcode?, .endOfCode⟩
  | follower {i j : Instruction} {rest : List Instruction} {follower : Follower} {f : Fault}
      (hi : bounds.leaderFault pc i = none) (hfollower : followerOf i = some follower)
      (hj : bounds.followerFault (pc + 1) follower j = some f) :
      FaultAt bounds pc (i :: j :: rest) f

theorem FaultAt.faultFrom_eq (h : bounds.FaultAt pc code f) :
    bounds.faultFrom pc code = some f := by
  cases h with
  | leader hi => rw [faultFrom, hi]
  | unfinished hi hfollower => rw [faultFrom, hi, hfollower]
  | follower hi hfollower hj =>
    rw [faultFrom, hi, hfollower]
    dsimp only
    rw [hj]

def Scanned (bounds : Bounds) (pc : Nat) (code : List Instruction) : Prop :=
  ∃ us rest, code = us ++ rest ∧ bounds.Cut pc us ∧
    (rest = [] ∨ ∃ f, bounds.FaultAt (pc + us.length) rest f)

theorem FaultAt.scanned (h : bounds.FaultAt pc code f) : bounds.Scanned pc code :=
  ⟨[], code, rfl, .nil, .inr ⟨f, h⟩⟩

theorem UnitAt.scanned (hu : bounds.UnitAt pc ws) (h : bounds.Scanned (pc + ws.length) rest) :
    bounds.Scanned pc (ws ++ rest) := by
  obtain ⟨us, rest, rfl, hus, hrest⟩ := h
  refine ⟨ws ++ us, rest, (List.append_assoc ..).symm, .unit hu hus, ?_⟩
  rwa [List.length_append, ← Nat.add_assoc]

theorem scanned (bounds : Bounds) (pc : Nat) (code : List Instruction) :
    bounds.Scanned pc code := by
  fun_induction faultFrom bounds pc code with
  | case1 => exact ⟨[], [], rfl, .nil, .inl rfl⟩
  | case2 pc i rest fault hi => exact FaultAt.scanned (.leader hi)
  | case3 pc i rest hi hnone ih => exact (unitAt_single_iff.2 ⟨hi, hnone⟩).scanned ih
  | case4 pc i hi f hf => exact FaultAt.scanned (.unfinished hi hf)
  | case5 pc i hi f hf j rest fault hj => exact FaultAt.scanned (.follower hi hf hj)
  | case6 pc i hi f hf j rest hj ih => exact (unitAt_pair_iff.2 ⟨hi, f, hf, hj⟩).scanned ih

theorem faultFrom_eq_none_iff : bounds.faultFrom pc code = none ↔ bounds.Cut pc code := by
  constructor
  · intro h
    obtain ⟨us, rest, rfl, hus, rfl | ⟨f, hf⟩⟩ := scanned bounds pc code
    · rwa [List.append_nil]
    · rw [hus.faultFrom_append, hf.faultFrom_eq] at h
      cases h
  · intro h
    have hcode := h.faultFrom_append []
    rwa [List.append_nil] at hcode

theorem faultFrom_eq_some_iff : bounds.faultFrom pc code = some f ↔ ∃ us rest,
    code = us ++ rest ∧ bounds.Cut pc us ∧ bounds.FaultAt (pc + us.length) rest f := by
  constructor
  · intro h
    obtain ⟨us, rest, rfl, hus, rfl | ⟨f', hf⟩⟩ := scanned bounds pc code
    · rw [List.append_nil, faultFrom_eq_none_iff.2 hus] at h
      cases h
    · rw [hus.faultFrom_append, hf.faultFrom_eq, Option.some.injEq] at h
      exact ⟨us, rest, rfl, hus, h ▸ hf⟩
  · rintro ⟨us, rest, rfl, hus, hf⟩
    rw [hus.faultFrom_append, hf.faultFrom_eq]

/-- No unit that obeys the rules begins where a unit is at fault. -/
theorem FaultAt.not_unitAt (h : bounds.FaultAt pc code f) (hws : ws <+: code) :
    ¬bounds.UnitAt pc ws := by
  intro hu
  obtain ⟨rest, rfl⟩ := hws
  obtain ⟨i, rfl⟩ | ⟨i, j, rfl⟩ := hu.cases_words
  · obtain ⟨hleader, hnone⟩ := unitAt_single_iff.1 hu
    cases h <;> simp_all
  · obtain ⟨hleader, follower, hfollower, hfault⟩ := unitAt_pair_iff.1 hu
    cases h <;> simp_all

/-- A fault names the word that it is found at. -/
theorem unmet_eq_some {ds : List Demand} (h : bounds.unmet pc o ds = some f) :
    f.pc = pc ∧ f.opcode = some o := by
  obtain ⟨d, -, rfl⟩ := Option.map_eq_some_iff.1 h
  exact ⟨rfl, rfl⟩

theorem leaderFault_eq_some (h : bounds.leaderFault pc i = some f) :
    f.pc = pc ∧ f.opcode = i.opcode? := by
  unfold leaderFault at h
  split at h
  · rename_i hop
    cases h
    exact ⟨rfl, hop.symm⟩
  · rename_i o hop
    rw [hop]
    exact unmet_eq_some h

theorem followerFault_eq_some {follower : Follower}
    (h : bounds.followerFault pc follower j = some f) : f.pc = pc ∧ f.opcode = j.opcode? := by
  unfold followerFault at h
  split at h
  · rename_i hop
    rw [hop]
    exact unmet_eq_some h
  · cases h
    exact ⟨rfl, rfl⟩

/-- The word at fault is the first one of its unit, or the one after a leader that obeys the rules.
What follows it has no say, but for being there or not. -/
theorem FaultAt.exists_word (h : bounds.FaultAt pc code f) : ∃ ws w rest,
    code = ws ++ w :: rest ∧ f.pc = pc + ws.length ∧ f.opcode = w.opcode? ∧
      (ws = [] ∨ ∃ i o, ws = [i] ∧ o.Leads i ∧ bounds.Obeyed pc i o) ∧
      ∀ rest', rest'.length = rest.length → bounds.FaultAt pc (ws ++ w :: rest') f := by
  cases h with
  | @leader i rest _ hi =>
    obtain ⟨hpc, hop⟩ := leaderFault_eq_some hi
    exact ⟨[], i, rest, rfl, hpc, hop, .inl rfl, fun _ _ => .leader hi⟩
  | @unfinished i _ hi hfollower =>
    refine ⟨[], i, [], rfl, rfl, rfl, .inl rfl, fun rest' hrest' => ?_⟩
    rw [List.eq_nil_of_length_eq_zero hrest']
    exact .unfinished hi hfollower
  | @follower i j rest _ _ hi hfollower hj =>
    obtain ⟨hpc, hop⟩ := followerFault_eq_some hj
    obtain ⟨o, -, hobeyed⟩ := leaderFault_eq_none_iff_obeyed.1 hi
    have hleads := leads_of_followerOf hobeyed.1 hfollower
    exact ⟨[i], j, rest, rfl, hpc, hop, .inr ⟨i, o, rfl, hleads, hobeyed⟩, fun _ _ =>
      .follower hi hfollower hj⟩

/-- Code with the same words up to the one at fault, and as many of them, has the same fault. -/
theorem faultFrom_congr {code' : List Instruction} (h : bounds.faultFrom 0 code = some f)
    (htake : code'.take (f.pc + 1) = code.take (f.pc + 1))
    (hlength : code'.length = code.length) : bounds.faultFrom 0 code' = some f := by
  obtain ⟨us, rest, rfl, hus, hf⟩ := faultFrom_eq_some_iff.1 h
  rw [Nat.zero_add] at hf
  obtain ⟨ws, w, rest, rfl, hpc, -, -, hrest⟩ := hf.exists_word
  have hsplit : ∀ rest, us ++ (ws ++ w :: rest) = us ++ (ws ++ [w]) ++ rest := fun rest => by simp
  have hwords : (us ++ (ws ++ [w])).length = f.pc + 1 := by
    rw [hpc, List.length_append, List.length_append, List.length_singleton, Nat.add_assoc]
  have hcode' : code' = us ++ (ws ++ w :: code'.drop (f.pc + 1)) := by
    rw [hsplit, List.take_left' hwords] at htake
    rw [hsplit, ← htake, List.take_append_drop]
  rw [hcode']
  refine faultFrom_eq_some_iff.2 ⟨us, _, rfl, hus, ?_⟩
  rw [Nat.zero_add]
  apply hrest
  rw [List.length_drop, hlength, hsplit, List.length_append, hwords, Nat.add_sub_cancel_left]

/-- The word that `f` is found at keeps `code` from being cut: what comes before its unit is cut
into units, and no unit begins there. -/
def FirstFault (bounds : Bounds) (code : List Instruction) (f : Fault) : Prop :=
  ∃ us ws w rest, code = us ++ (ws ++ w :: rest) ∧ f.pc = us.length + ws.length ∧
    f.opcode = w.opcode? ∧ bounds.Cut 0 us ∧
    (∀ vs, vs <+: ws ++ w :: rest → ¬bounds.UnitAt us.length vs) ∧
    (ws = [] ∨ ∃ i o, ws = [i] ∧ o.Leads i ∧ bounds.Obeyed us.length i o)

theorem firstFault_of_faultFrom (h : bounds.faultFrom 0 code = some f) :
    bounds.FirstFault code f := by
  obtain ⟨us, rest, rfl, hus, hf⟩ := faultFrom_eq_some_iff.1 h
  rw [Nat.zero_add] at hf
  obtain ⟨ws, w, rest, rfl, hpc, hop, hws, -⟩ := hf.exists_word
  exact ⟨us, ws, w, rest, rfl, hpc, hop, hus, fun vs => hf.not_unitAt, hws⟩

end Bounds

/-- A function is verified exactly if its code can be cut into units that obey the rules. The fault
of any other one is found at the word that keeps its code from being cut. It depends on the words up
to there and on what operands may name, and on nothing else. -/
theorem Prototype.cut_or_first_fault (p : Prototype) :
    (p.fault? = none ↔ p.bounds.Cut 0 p.body.code) ∧
      ∀ f, p.fault? = some f → p.bounds.FirstFault p.body.code f ∧
        ∀ q : Prototype, q.bounds = p.bounds →
          q.body.code.take (f.pc + 1) = p.body.code.take (f.pc + 1) → q.fault? = some f := by
  refine ⟨Bounds.faultFrom_eq_none_iff, fun f hf => ⟨Bounds.firstFault_of_faultFrom hf, ?_⟩⟩
  intro q hbounds htake
  have hlength : q.body.code.length = p.body.code.length := congrArg Bounds.codeLength hbounds
  have hq : q.fault? = q.bounds.faultFrom 0 q.body.code := rfl
  rw [hq, hbounds]
  exact Bounds.faultFrom_congr hf htake hlength

def Prototype.unpaired : Prototype :=
  .mk { (default : Body) with
    maxStack := 1
    code := [.ofABC .move 0 1 0, .ofABC .eq 1 0 1, .ofABC .move 1 0 0, .ofABC .ret 0 1 0] } []

theorem Prototype.cut_or_first_fault_unpaired :
    let f : Fault := ⟨2, some .move, .noJump⟩
    (branching.fault? = none ∧ branching.bounds.Cut 0 branching.body.code) ∧
      unpaired.fault? = some f ∧ unpaired.bounds.FirstFault unpaired.body.code f ∧
      ∀ q : Prototype, q.bounds = unpaired.bounds →
        q.body.code.take 3 = unpaired.body.code.take 3 → q.fault? = some f := by
  intro f
  have hbranching : branching.fault? = none := by decide
  have hunpaired : unpaired.fault? = some f := by decide
  exact ⟨⟨hbranching, (cut_or_first_fault branching).1.1 hbranching⟩, hunpaired,
    (cut_or_first_fault unpaired).2 f hunpaired⟩

end LuaData
