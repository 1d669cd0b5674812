import LuaData.Proofs.Verification.Exactness
import Mathlib.Data.List.Pairwise

namespace LuaData

/-- Where an instruction at `pc` leads by a jump, or by the word that a LOADBOOL skips. -/
def Opcode.landings (pc : Nat) (i : Instruction) : Opcode → List Int
  | loadBool => if i.c = 0 then [] else [pc + 2]
  | o => o.targets pc i

def Instruction.landings (pc : Nat) (i : Instruction) : List Int :=
  match i.opcode? with
  | none => []
  | some o => o.landings pc i

namespace CodeUnit

def landings (u : CodeUnit) : List Int :=
  match u.follower with
  | none => u.leader.landings u.pc
  | some j => u.leader.landings u.pc ++ j.landings (u.pc + 1)

def ExtendedAt (u : CodeUnit) (pc : Nat) : Prop :=
  u.pc + 1 = pc ∧ ∃ j, u.follower = some j ∧ j.opcode? = some .extraArg

variable {bounds : Bounds} {pc k : Nat} {code : List Instruction} {u v : CodeUnit} {w : Instruction}

theorem le_pc (hu : u ∈ cut pc code) : pc ≤ u.pc := by
  fun_induction cut pc code with
  | case1 => cases hu
  | case2 pc i rest hi ih =>
    rcases List.mem_cons.1 hu with rfl | hu
    · exact Nat.le_refl _
    · exact Nat.le_of_succ_le (ih hu)
  | case3 pc i f hi =>
    cases List.mem_singleton.1 hu
    exact Nat.le_refl _
  | case4 pc i f hi j rest ih =>
    rcases List.mem_cons.1 hu with rfl | hu
    · exact Nat.le_refl _
    · exact Nat.le_trans (Nat.le_add_right ..) (ih hu)

theorem pairwise_cut (pc : Nat) (code : List Instruction) :
    (cut pc code).Pairwise fun u v => u.pc + u.words.length ≤ v.pc := by
  fun_induction cut pc code with
  | case1 => exact .nil
  | case2 pc i rest hi ih => exact .cons (fun v hv => le_pc hv) ih
  | case3 pc i f hi => exact List.pairwise_singleton ..
  | case4 pc i f hi j rest ih => exact .cons (fun v hv => le_pc hv) ih

theorem eq_or_apart (hu : u ∈ cut pc code) (hv : v ∈ cut pc code) :
    u = v ∨ u.pc + u.words.length ≤ v.pc ∨ v.pc + v.words.length ≤ u.pc := by
  by_cases he : u = v
  · exact .inl he
  let Apart (u v : CodeUnit) := u.pc + u.words.length ≤ v.pc ∨ v.pc + v.words.length ≤ u.pc
  have hsymm : Std.Symm Apart := ⟨fun _ _ => Or.symm⟩
  have hapart : (cut pc code).Pairwise Apart := (pairwise_cut pc code).imp Or.inl
  exact .inr (hapart.forall hu hv he)

theorem exists_mem_cut (pc : Nat) (hw : code[k]? = some w) : ∃ u ∈ cut pc code,
    (u.pc = pc + k ∧ u.leader = w) ∨ u.pc + 1 = pc + k ∧ u.follower = some w := by
  fun_induction cut pc code generalizing k with
  | case1 => cases hw
  | case2 pc i rest hi ih =>
    cases k with
    | zero =>
      cases hw
      exact ⟨_, List.mem_cons_self, .inl ⟨rfl, rfl⟩⟩
    | succ k =>
      obtain ⟨u, hu, hpos⟩ := ih hw
      rw [Nat.add_right_comm] at hpos
      exact ⟨u, List.mem_cons_of_mem _ hu, hpos⟩
  | case3 pc i f hi =>
    cases k with
    | zero =>
      cases hw
      exact ⟨_, List.mem_cons_self, .inl ⟨rfl, rfl⟩⟩
    | succ k => cases hw
  | case4 pc i f hi j rest ih =>
    rcases k with _ | _ | k
    · cases hw
      exact ⟨_, List.mem_cons_self, .inl ⟨rfl, rfl⟩⟩
    · cases hw
      exact ⟨_, List.mem_cons_self, .inr ⟨rfl, rfl⟩⟩
    · obtain ⟨u, hu, hpos⟩ := ih hw
      rw [Nat.add_right_comm, Nat.add_assoc pc k 2] at hpos
      exact ⟨u, List.mem_cons_of_mem _ hu, hpos⟩

end CodeUnit

variable {bounds : Bounds} {pc n : Nat} {i j : Instruction} {o : Opcode} {t : Int}

/-- An instruction that is complete by itself leads to the next word, if not where it jumps or
skips to. -/
theorem Opcode.mem_next_of_not_leads (ho : ¬o.Leads i) (ht : t ∈ o.next pc i) :
    t ∈ o.landings pc i ∨ t = pc + 1 := by
  cases o
  case loadBool =>
    simp only [next, landings] at ht ⊢
    split_ifs at ht ⊢
    · exact .inr (List.mem_singleton.1 ht)
    · exact .inl ht
  case setList =>
    have hc : i.c ≠ 0 := fun hc => ho (.inr ⟨rfl, hc⟩)
    rw [next, if_neg hc] at ht
    exact .inr (List.mem_singleton.1 ht)
  case loadKX | eq | lt | le | test | testSet | tForCall => exact absurd (.inl (by decide)) ho
  case jmp | forPrep => exact .inl ht
  case forLoop | tForLoop => exact (List.mem_cons.1 ht).symm
  case extraArg => cases ht
  all_goals exact .inr (List.mem_singleton.1 ht)

/-- An instruction that another word has to follow leads past it, or to it if that word is an
operation of its own. -/
theorem Opcode.mem_next_of_leads (ho : o.Leads i) (ht : t ∈ o.next pc i) :
    t = pc + 2 ∨ t = pc + 1 ∧ ∀ f, o.follower i = some f → f.opcode ≠ .extraArg := by
  cases o
  case loadKX => exact .inl (List.mem_singleton.1 ht)
  case setList =>
    have hc : i.c = 0 := by simpa [Leads] using ho
    rw [next, if_pos hc] at ht
    exact .inl (List.mem_singleton.1 ht)
  case eq | lt | le | test | testSet =>
    obtain rfl | ht := List.mem_cons.1 ht
    · exact .inr ⟨rfl, fun f hf => by cases hf; decide⟩
    · exact .inl (List.mem_singleton.1 ht)
  case tForCall => exact .inr ⟨List.mem_singleton.1 ht, fun f hf => by cases hf; decide⟩
  all_goals simp [Leads] at ho

theorem Opcode.mem_next_of_landings (ht : t ∈ o.landings pc i) : t ∈ o.next pc i := by
  cases o
  case loadBool =>
    simp only [next, landings] at ht ⊢
    split_ifs at ht ⊢
    · cases ht
    · exact ht
  case jmp | forPrep => exact ht
  case forLoop | tForLoop => exact List.mem_cons_of_mem _ ht
  all_goals cases ht

theorem Instruction.mem_next_of_landings (ht : t ∈ i.landings pc) : t ∈ i.next pc := by
  cases hop : i.opcode? with
  | none =>
    rw [Instruction.landings, hop] at ht
    cases ht
  | some o =>
    rw [Instruction.landings, hop] at ht
    rw [Instruction.next, hop]
    exact Opcode.mem_next_of_landings ht

theorem Opcode.eq_of_follower_extraArg {f : Follower} (hf : o.follower i = some f)
    (hop : f.opcode = .extraArg) : o = .loadKX ∨ o = .setList ∧ i.c = 0 := by
  cases o
  case loadKX => exact .inl rfl
  case setList => exact .inr ⟨rfl, (Option.ite_none_right_eq_some.1 hf).1⟩
  case eq | lt | le | test | testSet | tForCall =>
    cases hf
    cases hop
  all_goals cases hf

theorem Follower.mem_next {f : Follower} (hop : j.opcode? = some f.opcode) (ht : t ∈ j.next pc) :
    t ∈ j.landings pc ∨ t = pc + 1 := by
  rw [Instruction.next, hop] at ht
  rw [Instruction.landings, hop]
  cases f with
  | extraArg | constantArg => cases ht
  | jump => exact .inl ht
  | loop => exact (List.mem_cons.1 ht).symm

namespace CodeUnit

variable {u v : CodeUnit}

theorem mem_next_of_landings (ht : t ∈ u.landings) : t ∈ u.next := by
  unfold landings at ht
  unfold next
  cases hj : u.follower with
  | none =>
    rw [hj] at ht
    exact Instruction.mem_next_of_landings ht
  | some j =>
    rw [hj] at ht
    exact List.mem_append.2 ((List.mem_append.1 ht).imp Instruction.mem_next_of_landings
      Instruction.mem_next_of_landings)

theorem Accepted.followerOf_eq_none (hu : u.Accepted bounds) (hj : u.follower = none) :
    Bounds.followerOf u.leader = none := by
  have hsome := hu.follower
  rwa [hj, Option.isSome_none, eq_comm, Option.isSome_eq_false_iff,
    Option.isNone_iff_eq_none] at hsome

/-- Control goes from a unit to the next one, or to a follower that is an operation of its own, if
not where the unit jumps or skips to. -/
theorem Accepted.mem_next (hu : u.Accepted bounds) (ht : t ∈ u.next) :
    t ∈ u.landings ∨ t = u.pc + u.words.length ∨
      t = u.pc + 1 ∧ ∃ j, u.follower = some j ∧ j.opcode? ≠ some .extraArg := by
  obtain ⟨o, hop, -⟩ := Bounds.leaderFault_eq_none_iff.1 hu.leader
  unfold next at ht
  unfold landings
  cases hj : u.follower with
  | none =>
    have hlone := (Bounds.followerOf_eq_none_iff hop).1 (hu.followerOf_eq_none hj)
    rw [hj, Instruction.next, hop] at ht
    rw [Instruction.landings, hop, words, hj]
    exact (Opcode.mem_next_of_not_leads hlone ht).imp_right .inl
  | some j =>
    obtain ⟨f, hf, hfault⟩ := hu.exists_follower hj
    have hjop := (Bounds.followerFault_eq_none_iff.1 hfault).1
    have hleads := Bounds.leads_of_followerOf hop hf
    rw [Bounds.followerOf, hop, Option.bind_some] at hf
    rw [hj] at ht
    rw [words, hj]
    obtain ht | ht := List.mem_append.1 ht
    · rw [Instruction.next, hop] at ht
      obtain ht | ⟨ht, hextra⟩ := Opcode.mem_next_of_leads hleads ht
      · exact .inr (.inl ht)
      · refine .inr (.inr ⟨ht, j, rfl, ?_⟩)
        rw [hjop, ne_eq, Option.some.injEq]
        exact hextra f hf
    · obtain ht | ht := Follower.mem_next hjop ht
      · exact .inl (List.mem_append_right _ ht)
      · exact .inr (.inl ht)

theorem ExtendedAt.words_length {e : Nat} (hv : v.ExtendedAt e) : v.words.length = 2 := by
  obtain ⟨-, j, hj, -⟩ := hv
  rw [words, hj]
  rfl

/-- To the word that extends another instruction, a unit leads by a jump or a skipped word only. -/
theorem Accepted.mem_next_iff_of_extendedAt {code : List Instruction} {e : Nat}
    (hu : u.Accepted bounds) (hucut : u ∈ cut pc code) (hvcut : v ∈ cut pc code)
    (hv : v.ExtendedAt e) : (e : Int) ∈ u.next ↔ (e : Int) ∈ u.landings := by
  refine ⟨fun ht => ?_, mem_next_of_landings⟩
  have hlength := hv.words_length
  obtain ⟨he, j, hj, hop⟩ := hv
  obtain ht | ht | ⟨ht, j', hj', hop'⟩ := hu.mem_next ht
  · exact ht
  · obtain rfl | hapart := eq_or_apart hucut hvcut <;> omega
  · have hlength' : u.words.length = 2 := by rw [words, hj']; rfl
    obtain rfl | hapart := eq_or_apart hucut hvcut
    · rw [hj, Option.some.injEq] at hj'
      exact absurd (hj' ▸ hop) hop'
    · omega

/-- An EXTRAARG in verified code is the second word of the unit of a LOADKX, or of a SETLIST that
takes its count from there. -/
theorem exists_extendedAt {code : List Instruction} {e : Nat}
    (haccepted : ∀ u ∈ cut 0 code, u.Accepted bounds) (hj : code[e]? = some j)
    (hop : j.opcode? = some .extraArg) : ∃ v ∈ cut 0 code, v.ExtendedAt e ∧
      (v.leader.opcode? = some .loadKX ∨ v.leader.opcode? = some .setList ∧ v.leader.c = 0) := by
  obtain ⟨v, hv, ⟨-, rfl⟩ | ⟨hpc, hfollower⟩⟩ := exists_mem_cut 0 hj
  · obtain ⟨o, ⟨-, ho⟩, hleader, -⟩ :=
      Bounds.leaderFault_eq_none_iff_obeyed.1 (haccepted v hv).leader
    rw [hop, Option.some.injEq] at hleader
    exact absurd hleader.symm ho
  · rw [Nat.zero_add] at hpc
    refine ⟨v, hv, ⟨hpc, j, hfollower, hop⟩, ?_⟩
    obtain ⟨f, hf, hfault⟩ := (haccepted v hv).exists_follower hfollower
    have hfop := (Bounds.followerFault_eq_none_iff.1 hfault).1
    rw [hop, Option.some.injEq] at hfop
    obtain ⟨o, hleader, hf⟩ := Option.bind_eq_some_iff.1 hf
    rw [hleader, Option.some.injEq, Option.some.injEq]
    exact Opcode.eq_of_follower_extraArg hf hfop.symm

end CodeUnit

def Opcode.landers : List Opcode := [loadBool, jmp, forLoop, forPrep, tForLoop]

theorem Opcode.not_leads_of_mem_landers (ho : o ∈ landers) : ¬o.Leads i := by
  revert ho
  cases o <;> simp [landers, Leads]

namespace Bounds

variable {k : Nat} {code ws : List Instruction}

theorem Obeyed.opcode_eq {o' : Opcode} (h : bounds.Obeyed pc i o') (hop : i.opcode? = some o) :
    o = o' := by
  rw [h.1, Option.some.injEq] at hop
  exact hop.symm

theorem Obeyed.pair_cases {i' j' : Instruction} {o' o'' : Opcode} (hi' : bounds.Obeyed pc i' o')
    (hj' : bounds.Obeyed n j' o'') (hi : [i', j'][k]? = some i) (hop : i.opcode? = some o) :
    (k = 0 ∧ o = o') ∨ k = 1 ∧ o = o'' := by
  rcases k with _ | _ | k
  · cases hi
    exact .inl ⟨rfl, hi'.opcode_eq hop⟩
  · cases hi
    exact .inr ⟨rfl, hj'.opcode_eq hop⟩
  · cases hi

/-- In a unit, one jump may stand for another of the same kind. -/
theorem UnitAt.set (hu : bounds.UnitAt pc ws) (hi : ws[k]? = some i) (hop : i.opcode? = some o)
    (ho : o ∈ Opcode.landers) (hj : bounds.Obeyed (pc + k) j o) :
    bounds.UnitAt pc (ws.set k j) := by
  cases hu with
  | @single i' o' hi' hlone hhead =>
    obtain rfl : k = 0 := Nat.lt_one_iff.1 (List.getElem?_eq_some_iff.1 hi).1
    cases hi
    obtain rfl := hi'.opcode_eq hop
    exact .single hj (Opcode.not_leads_of_mem_landers ho) hhead
  | constant hi' hj' hax =>
    obtain ⟨rfl, rfl⟩ | ⟨rfl, rfl⟩ := hi'.pair_cases hj' hi hop <;> exact absurd ho (by decide)
  | count hi' hc hj' =>
    obtain ⟨rfl, rfl⟩ | ⟨rfl, rfl⟩ := hi'.pair_cases hj' hi hop <;> exact absurd ho (by decide)
  | test ho' hi' hj' =>
    obtain ⟨rfl, rfl⟩ | ⟨rfl, rfl⟩ := hi'.pair_cases hj' hi hop
    · exact absurd ho' (by revert ho; cases o <;> decide)
    · exact .test ho' hi' hj
  | loop hi' hj' =>
    obtain ⟨rfl, rfl⟩ | ⟨rfl, rfl⟩ := hi'.pair_cases hj' hi hop
    · exact absurd ho (by decide)
    · exact .loop hi' hj

theorem Cut.set (hcut : bounds.Cut pc code) (hi : code[k]? = some i) (hop : i.opcode? = some o)
    (ho : o ∈ Opcode.landers) (hj : bounds.Obeyed (pc + k) j o) : bounds.Cut pc (code.set k j) := by
  induction hcut generalizing k with
  | nil => cases hi
  | @unit pc ws rest hu hrest ih =>
    by_cases hk : k < ws.length
    · rw [List.getElem?_append_left hk] at hi
      rw [List.set_append_left _ _ hk]
      refine .unit (hu.set hi hop ho hj) ?_
      rwa [List.length_set]
    · rw [Nat.not_lt] at hk
      rw [List.getElem?_append_right hk] at hi
      rw [List.set_append_right _ _ hk]
      refine .unit hu (ih hi ?_)
      rwa [Nat.add_assoc, Nat.add_sub_cancel' hk]

end Bounds

namespace Prototype

def withWord (p : Prototype) (n : Nat) (j : Instruction) : Prototype :=
  .mk { p.body with code := p.body.code.set n j } p.children

theorem bounds_withWord (p : Prototype) : (p.withWord n j).bounds = p.bounds := by
  simp [withWord, bounds, body, children, Body.bounds]

theorem fault?_withWord {p : Prototype} (h : p.fault? = none) (hi : p.body.code[n]? = some i)
    (hop : i.opcode? = some o) (ho : o ∈ Opcode.landers) (hj : p.bounds.Obeyed n j o) :
    (p.withWord n j).fault? = none := by
  have hcut : p.bounds.Cut 0 p.body.code := Bounds.faultFrom_eq_none_iff.1 h
  have hq : (p.withWord n j).fault? = (p.withWord n j).bounds.faultFrom 0 (p.body.code.set n j) :=
    rfl
  rw [hq, bounds_withWord, Bounds.faultFrom_eq_none_iff]
  exact hcut.set hi hop ho (by rwa [Nat.zero_add])

/-- In verified code, an EXTRAARG follows the LOADKX or SETLIST that it extends. To it control comes
by a jump or a skipped word only. By these it may come: a word that jumps or skips may stand for any
other one of its kind, wherever in the code it leads. -/
theorem extension_reached {p : Prototype} (h : p.fault? = none) :
    (∀ e j, p.body.code[e]? = some j → j.opcode? = some .extraArg →
      ∃ v ∈ p.units, v.ExtendedAt e ∧
        (v.leader.opcode? = some .loadKX ∨ v.leader.opcode? = some .setList ∧ v.leader.c = 0)) ∧
    (∀ u ∈ p.units, ∀ v ∈ p.units, ∀ e : Nat, v.ExtendedAt e →
      ((e : Int) ∈ u.next ↔ (e : Int) ∈ u.landings)) ∧
    ∀ n i o j, p.body.code[n]? = some i → i.opcode? = some o → o ∈ Opcode.landers →
      p.bounds.Obeyed n j o → (p.withWord n j).fault? = none := by
  have haccepted := accepted_of_fault? h
  refine ⟨fun e j => CodeUnit.exists_extendedAt haccepted, ?_, fun n i o j => fault?_withWord h⟩
  intro u hu v hv e he
  exact (haccepted u hu).mem_next_iff_of_extendedAt hu hv he

/-- Each of the operations that lead elsewhere leads to the EXTRAARG of a LOADKX. -/
def intruding : Prototype :=
  .mk { (default : Body) with
    maxStack := 4
    constants := [.nil]
    code := [.ofABC .loadBool 0 0 1, .ofABx .loadKX 0 0, .ofAx .extraArg 0, .ofAsBx .jmp 0 (-2),
      .ofAsBx .forPrep 0 (-3), .ofAsBx .forLoop 0 (-4), .ofABC .tForCall 0 0 1,
      .ofAsBx .tForLoop 2 (-6), .ofABC .ret 0 1 0] } []

theorem extension_reached_intruding : intruding.fault? = none ∧
    (∃ v ∈ intruding.units, v.ExtendedAt 2 ∧
      (v.leader.opcode? = some .loadKX ∨ v.leader.opcode? = some .setList ∧ v.leader.c = 0)) ∧
    (∀ u ∈ intruding.units, ∀ v ∈ intruding.units, v.ExtendedAt 2 →
      ((2 : Int) ∈ u.next ↔ (2 : Int) ∈ u.landings)) ∧
    (intruding.withWord 3 (.ofAsBx .jmp 0 5)).fault? = none := by
  have h : intruding.fault? = none := by decide
  have hj : intruding.bounds.Obeyed 3 (.ofAsBx .jmp 0 5) .jmp :=
    ⟨by decide, (Opcode.met_iff.1 (by decide)).2⟩
  obtain ⟨hextended, hreached, hretargeted⟩ := extension_reached h
  exact ⟨h, hextended 2 (.ofAx .extraArg 0) (by decide) (by decide),
    fun u hu v hv => hreached u hu v hv 2,
    hretargeted 3 (.ofAsBx .jmp 0 (-2)) .jmp _ (by decide) (by decide) (by decide) hj⟩

/-- Jumps and skipped words can lead to an EXTRAARG. -/
theorem extension_entered : ¬∀ p : Prototype, p.fault? = none → ∀ u ∈ p.units, ∀ v ∈ p.units,
    ∀ e : Nat, v.ExtendedAt e → (e : Int) ∉ u.landings := by
  intro h
  exact h intruding (by decide) ⟨3, .ofAsBx .jmp 0 (-2), none⟩ (by decide)
    ⟨1, .ofABx .loadKX 0 0, some (.ofAx .extraArg 0)⟩ (by decide) 2 ⟨rfl, _, rfl, by decide⟩
    (by decide)

end Prototype

end LuaData
