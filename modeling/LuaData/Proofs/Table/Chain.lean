import LuaData.Proofs.Equality
import Mathlib.Data.Finset.Card
import Mathlib.Logic.Equiv.Basic
import Mathlib.Logic.Relation

namespace LuaData.Table

variable {h : StringHash} {t t' : Table} {i j : Nat}

theorem slot_of_le (hi : t.slots.size ≤ i) : t.slot i = {} := by
  rw [slot, Array.getD_eq_getD_getElem?, Array.getElem?_eq_none hi]
  rfl

theorem slot_setSlot (t : Table) (i j : Nat) (s : Slot) :
    (t.setSlot i s).slot j = if i = j ∧ j < t.slots.size then s else t.slot j := by
  simp only [slot, setSlot, Array.getD_eq_getD_getElem?, Array.getElem?_setIfInBounds]
  by_cases hj : j < t.slots.size
  · by_cases hi : i = j <;> simp [hi, hj]
  · by_cases hi : i = j <;> simp [hi, hj]

@[simp] theorem size_setSlot (t : Table) (i : Nat) (s : Slot) :
    (t.setSlot i s).slots.size = t.slots.size := Array.size_setIfInBounds

@[simp] theorem size_setChain (t : Table) (i : Nat) (n : Option Nat) :
    (t.setChain i n).slots.size = t.slots.size := size_setSlot ..

/-- Slot `i` holds a key, be its entry present or cleared. -/
def Used (t : Table) (i : Nat) : Prop := (t.slot i).isFree = false

def homeOf (h : StringHash) (t : Table) (i : Nat) : Nat :=
  (t.slot i).key.mainPosition h t.slots.size

def Link (t : Table) (i j : Nat) : Prop := (t.slot i).chain = some j

def Reaches (t : Table) : Nat → Nat → Prop := Relation.ReflTransGen t.Link

instance (t : Table) (i : Nat) : Decidable (t.Used i) := inferInstanceAs (Decidable (_ = _))

theorem Used.lt_size (hi : t.Used i) : i < t.slots.size := by
  by_contra hge
  rw [Used, slot_of_le (Nat.le_of_not_lt hge)] at hi
  cases hi

theorem not_used : ¬t.Used i ↔ (t.slot i).isFree = true := by
  rw [Used, Bool.not_eq_false]

theorem used_iff_isNil : t.Used i ↔ (t.slot i).key.isNil = false := Iff.rfl

structure Chained (h : StringHash) (t : Table) : Prop where
  size : t.slots.size = 0 ∨ ∃ n, t.slots.size = 2 ^ n
  blank : ∀ i, ¬t.Used i → t.slot i = {}
  isKey : ∀ i, t.Used i → (t.slot i).key.IsKey
  /-- Who is not at its main position finds there a key that is. -/
  displaced : ∀ i, t.Used i → t.homeOf h i ≠ i →
    t.Used (t.homeOf h i) ∧ t.homeOf h (t.homeOf h i) = t.homeOf h i
  target : ∀ i j, t.Link i j → t.Used j
  unshared : ∀ i j k, t.Link i k → t.Link j k → i = j
  /-- Links lead to higher ranks, so there are no cycles. -/
  ranked : ∃ rank : Nat → Nat, ∀ i j, t.Link i j → rank i < rank j
  reached : ∀ i, t.Used i → t.Reaches (t.homeOf h i) i

/-- No two slots hold equal keys. -/
def Distinct (t : Table) : Prop :=
  ∀ i j, t.Used i → t.Used j → (t.slot i).key.equal (t.slot j).key = true → i = j

theorem Distinct.congr (hd : t.Distinct) (hkey : ∀ i, (t'.slot i).key = (t.slot i).key) :
    t'.Distinct := by
  simp only [Distinct, Used, Slot.isFree, hkey]
  exact hd

/-- Slots have changed places by `σ`, and then a new key has come into slot `i`. -/
theorem Distinct.admit (hd : t.Distinct) {k : Value} {σ : Equiv.Perm Nat}
    (hnew : ∀ j, t.Used j → (t.slot j).key.equal k = false) (hself : (t'.slot i).key = k)
    (hrest : ∀ j, σ j ≠ i → (t'.slot (σ j)).key = (t.slot j).key) : t'.Distinct := by
  have hused : ∀ j, σ j ≠ i → t'.Used (σ j) → t.Used j := fun j hj hu => by
    rwa [Used, Slot.isFree, hrest j hj] at hu
  refine σ.surjective.forall₂.2 fun a b ha hb he => ?_
  by_cases hai : σ a = i <;> by_cases hbi : σ b = i
  · rw [hai, hbi]
  · rw [hai, hself, hrest b hbi, Value.equal_comm, hnew b (hused b hbi hb)] at he
    cases he
  · rw [hbi, hself, hrest a hai, hnew a (hused a hai ha)] at he
    cases he
  · rw [hrest a hai, hrest b hbi] at he
    rw [hd a b (hused a hai ha) (hused b hbi hb) he]

theorem Chained.source (hc : Chained h t) (hl : t.Link i j) : t.Used i := by
  by_contra hn
  rw [Link, hc.blank i hn] at hl
  cases hl

theorem Chained.isLive_eq_false (hc : Chained h t) (hi : ¬t.Used i) :
    (t.slot i).isLive = false := by
  rw [hc.blank i hi]
  rfl

theorem Chained.acyclic (hc : Chained h t) (i : Nat) : ¬Relation.TransGen t.Link i i := by
  obtain ⟨rank, hrank⟩ := hc.ranked
  have hlt : ∀ {a b}, Relation.TransGen t.Link a b → rank a < rank b := fun hab => by
    induction hab with
    | single hl => exact hrank _ _ hl
    | tail _ hl ih => exact ih.trans (hrank _ _ hl)
  exact fun hi => (hlt hi).false

theorem Chained.not_link_self (hc : Chained h t) : ¬t.Link i i :=
  fun hl => hc.acyclic i (.single hl)

theorem Chained.used_homeOf (hc : Chained h t) (hi : t.Used i) : t.Used (t.homeOf h i) := by
  by_cases hh : t.homeOf h i = i
  · rwa [hh]
  · exact (hc.displaced i hi hh).1

theorem Chained.homeOf_homeOf (hc : Chained h t) (hi : t.Used i) :
    t.homeOf h (t.homeOf h i) = t.homeOf h i := by
  by_cases hh : t.homeOf h i = i
  · rw [hh, hh]
  · exact (hc.displaced i hi hh).2

/-- The keys and the links of slots are all that counts. -/
theorem Chained.congr (hc : Chained h t) (hsize : t'.slots.size = t.slots.size)
    (hkey : ∀ i, (t'.slot i).key = (t.slot i).key)
    (hchain : ∀ i, (t'.slot i).chain = (t.slot i).chain)
    (hblank : ∀ i, ¬t.Used i → t'.slot i = t.slot i) : Chained h t' := by
  have hused : t'.Used = t.Used := funext fun i => by simp only [Used, Slot.isFree, hkey]
  have hhome : t'.homeOf h = t.homeOf h := funext fun i => by simp only [homeOf, hkey, hsize]
  have hlink : t'.Link = t.Link := funext fun i => funext fun j => by simp only [Link, hchain]
  constructor
  case size =>
    rw [hsize]
    exact hc.size
  case blank =>
    rw [hused]
    exact fun i hi => (hblank i hi).trans (hc.blank i hi)
  case isKey =>
    simp only [hused, hkey]
    exact hc.isKey
  case displaced =>
    simp only [hused, hhome]
    exact hc.displaced
  case target =>
    simp only [hused, hlink]
    exact hc.target
  case unshared =>
    simp only [hlink]
    exact hc.unshared
  case ranked =>
    simp only [hlink]
    exact hc.ranked
  case reached =>
    simp only [Reaches, hused, hhome, hlink]
    exact hc.reached

theorem slot_replicate {n : Nat} (ht : t.slots = Array.replicate n {}) (i : Nat) :
    t.slot i = {} := by
  simp only [slot, ht, Array.getD_eq_getD_getElem?, Array.getElem?_replicate]
  split_ifs <;> rfl

/-- A hash part without keys. -/
theorem chained_replicate {n : Nat} (ht : t.slots = Array.replicate n {})
    (hn : n = 0 ∨ ∃ m, n = 2 ^ m) : Chained h t := by
  have hslot := slot_replicate ht
  have hused : ∀ i, ¬t.Used i := fun i => by simp [Used, hslot, Slot.isFree, Value.isNil]
  have hlink : ∀ i j, ¬t.Link i j := fun i j => by simp [Link, hslot]
  exact {
    size := by rwa [ht, Array.size_replicate]
    blank := fun i _ => hslot i
    isKey := fun i hi => absurd hi (hused i)
    displaced := fun i hi => absurd hi (hused i)
    target := fun i j hl => absurd hl (hlink i j)
    unshared := fun i j k hl => absurd hl (hlink i k)
    ranked := ⟨id, fun i j hl => absurd hl (hlink i j)⟩
    reached := fun i hi => absurd hi (hused i) }

/-- The slots of no lower rank. There are fewer of them with each step along a chain. -/
def ahead (t : Table) (rank : Nat → Nat) (i : Nat) : Finset Nat :=
  (Finset.range t.slots.size).filter fun x => rank i ≤ rank x

theorem card_ahead_le (t : Table) (rank : Nat → Nat) (i : Nat) :
    (t.ahead rank i).card ≤ t.slots.size :=
  (Finset.card_filter_le _ _).trans (Finset.card_range _).le

theorem mem_ahead_self (rank : Nat → Nat) (hi : i < t.slots.size) : i ∈ t.ahead rank i :=
  Finset.mem_filter.2 ⟨Finset.mem_range.2 hi, le_rfl⟩

theorem card_ahead_lt {rank : Nat → Nat} (hi : i < t.slots.size) (hlt : rank i < rank j) :
    (t.ahead rank j).card < (t.ahead rank i).card := by
  refine Finset.card_lt_card (Finset.ssubset_iff_of_subset ?_ |>.2 ⟨i, mem_ahead_self rank hi, ?_⟩)
  · intro x hx
    obtain ⟨hx, hle⟩ := Finset.mem_filter.1 hx
    exact Finset.mem_filter.2 ⟨hx, hlt.le.trans hle⟩
  · intro hm
    exact absurd (Finset.mem_filter.1 hm).2 (by omega)

theorem follow_sound {p : Slot → Bool} {fuel : Nat} (hf : t.follow p fuel i = some j) :
    t.Reaches i j ∧ p (t.slot j) = true := by
  induction fuel generalizing i with
  | zero => cases hf
  | succ fuel ih =>
    rw [follow] at hf
    split at hf
    · rename_i hp
      cases hf
      exact ⟨.refl, hp⟩
    · split at hf
      · cases hf
      · rename_i k hk
        obtain ⟨hr, hp⟩ := ih hf
        exact ⟨.head hk hr, hp⟩

/-- A slot of a chain is found, or one before it. -/
theorem Chained.follow_isSome (hc : Chained h t) {rank : Nat → Nat}
    (hrank : ∀ i j, t.Link i j → rank i < rank j) {p : Slot → Bool} (hr : t.Reaches i j)
    (hj : t.Used j) (hp : p (t.slot j) = true) {fuel : Nat}
    (hf : (t.ahead rank i).card ≤ fuel) : ∃ x, t.follow p fuel i = some x := by
  -- the slots ahead become fewer on each step, so the fuel lasts
  induction hr using Relation.ReflTransGen.head_induction_on generalizing fuel with
  | refl =>
    have hpos : 0 < (t.ahead rank j).card :=
      Finset.card_pos.2 ⟨j, mem_ahead_self rank hj.lt_size⟩
    obtain ⟨fuel, rfl⟩ : ∃ f, fuel = f + 1 := ⟨fuel - 1, by omega⟩
    exact ⟨j, by rw [follow, if_pos hp]⟩
  | @head a b hl _ ih =>
    have hlt := card_ahead_lt (hc.source hl).lt_size (hrank a b hl)
    obtain ⟨fuel, rfl⟩ : ∃ f, fuel = f + 1 := ⟨fuel - 1, by omega⟩
    rw [follow]
    split_ifs
    · exact ⟨a, rfl⟩
    · rw [show (t.slot a).chain = some b from hl]
      exact ih (by omega)

/-- A search has come to an end when its fuel is used up. -/
theorem Chained.follow_eq_of_le (hc : Chained h t) {rank : Nat → Nat}
    (hrank : ∀ i j, t.Link i j → rank i < rank j) (p : Slot → Bool) {fuel n : Nat}
    (hi : i < t.slots.size) (hf : (t.ahead rank i).card ≤ fuel) (hn : fuel ≤ n) :
    t.follow p n i = t.follow p fuel i := by
  induction fuel generalizing n i with
  | zero =>
    have hpos : 0 < (t.ahead rank i).card := Finset.card_pos.2 ⟨i, mem_ahead_self rank hi⟩
    omega
  | succ fuel ih =>
    obtain ⟨n, rfl⟩ : ∃ m, n = m + 1 := ⟨n - 1, by omega⟩
    rw [follow, follow]
    split_ifs
    · rfl
    · cases hch : (t.slot i).chain with
      | none => rfl
      | some j =>
        have hlt := card_ahead_lt hi (hrank i j hch)
        exact ih (hc.target i j hch).lt_size (by omega) (by omega)

/-- The predecessor is found on a chain that leads to the slot. -/
theorem Chained.predecessor_link (hc : Chained h t) {rank : Nat → Nat}
    (hrank : ∀ i j, t.Link i j → rank i < rank j) (hr : t.Reaches i j) (hne : i ≠ j) {fuel : Nat}
    (hf : (t.ahead rank i).card ≤ fuel) : t.Link (t.predecessor j fuel i) j := by
  induction hr using Relation.ReflTransGen.head_induction_on generalizing fuel with
  | refl => exact absurd rfl hne
  | @head a b hl _ ih =>
    have hlt := card_ahead_lt (hc.source hl).lt_size (hrank a b hl)
    obtain ⟨fuel, rfl⟩ : ∃ f, fuel = f + 1 := ⟨fuel - 1, by omega⟩
    rw [predecessor, show (t.slot a).chain = some b from hl]
    dsimp only
    split_ifs with hb
    · exact hb ▸ hl
    · exact ih hb (by omega)

theorem home?_eq_some (hi : i < t.slots.size) (k : Value) :
    t.home? h k = some (k.mainPosition h t.slots.size) := by
  rw [home?, if_neg]
  rw [Array.isEmpty_iff]
  rintro h0
  rw [h0] at hi
  cases hi

/-- A slot `p` gets a new key, of which `m` is the main position: `p` itself, or a slot that holds a
key where it belongs while `p` is free. All other slots keep their keys, and no way along a chain is
lost. -/
theorem Chained.add_key (hc : Chained h t) {k : Value} (hk : k.IsKey) {m p : Nat}
    (hm : k.mainPosition h t.slots.size = m)
    (hmp : m = p ∨ m ≠ p ∧ t.Used m ∧ t.homeOf h m = m ∧ ¬t.Used p)
    (hsize : t'.slots.size = t.slots.size) (hkeyP : (t'.slot p).key = k)
    (hkey : ∀ j, j ≠ p → (t'.slot j).key = (t.slot j).key)
    (hblank : ∀ j, j ≠ p → ¬t.Used j → t'.slot j = {})
    (htarget : ∀ a b, t'.Link a b → b = p ∨ t.Used b)
    (hunshared : ∀ a b x, t'.Link a x → t'.Link b x → a = b)
    (hranked : ∃ rank : Nat → Nat, ∀ a b, t'.Link a b → rank a < rank b)
    (hreach : ∀ a b, t.Reaches a b → t'.Reaches a b) (hself : t'.Reaches m p) :
    Chained h t' := by
  have hused : ∀ j, t'.Used j ↔ j = p ∨ t.Used j := fun j => by
    by_cases hj : j = p
    · subst hj
      simp [Used, Slot.isFree, hkeyP, hk.1]
    · simp [Used, Slot.isFree, hkey j hj, hj]
  have hhomeP : t'.homeOf h p = m := by rw [homeOf, hkeyP, hsize, hm]
  have hhomes : ∀ j, j ≠ p → t'.homeOf h j = t.homeOf h j := fun j hj => by
    rw [homeOf, homeOf, hkey j hj, hsize]
  constructor
  case size =>
    rw [hsize]
    exact hc.size
  case blank =>
    intro j hj
    rw [hused, not_or] at hj
    exact hblank j hj.1 hj.2
  case isKey =>
    intro j hj
    by_cases hjp : j = p
    · rwa [hjp, hkeyP]
    · rw [hkey j hjp]
      exact hc.isKey j (((hused j).1 hj).resolve_left hjp)
  case displaced =>
    intro j hj hne
    by_cases hjp : j = p
    · rw [hjp, hhomeP] at hne ⊢
      obtain ⟨hmne, hmu, hmm, -⟩ := hmp.resolve_left hne
      rw [hhomes m hmne]
      exact ⟨(hused m).2 (.inr hmu), hmm⟩
    · have hj := ((hused j).1 hj).resolve_left hjp
      rw [hhomes j hjp]
      by_cases hp : t.homeOf h j = p
      · -- a slot that others have as their main position is not free, so `p` is its own
        have hmeq : m = p := hmp.resolve_right fun hn => hn.2.2.2 (hp ▸ hc.used_homeOf hj)
        rw [hp, hhomeP]
        exact ⟨(hused p).2 (.inl rfl), hmeq⟩
      · rw [hhomes _ hp]
        exact ⟨(hused _).2 (.inr (hc.used_homeOf hj)), hc.homeOf_homeOf hj⟩
  case target =>
    exact fun a b hl => (hused b).2 (htarget a b hl)
  case unshared =>
    exact hunshared
  case ranked =>
    exact hranked
  case reached =>
    intro j hj
    by_cases hjp : j = p
    · rwa [hjp, hhomeP]
    · rw [hhomes j hjp]
      exact hreach _ _ (hc.reached j (((hused j).1 hj).resolve_left hjp))

/-- A key comes into its main position. The slot may be on any chain. -/
theorem Chained.rekey (hc : Chained h t) {k : Value} (hk : k.IsKey)
    (hhome : k.mainPosition h t.slots.size = i)
    (hsize : t'.slots.size = t.slots.size)
    (hslot : ∀ j, t'.slot j = if j = i then { t.slot i with key := k } else t.slot j) :
    Chained h t' := by
  have hself : t'.slot i = { t.slot i with key := k } := by rw [hslot, if_pos rfl]
  have hother : ∀ j, j ≠ i → t'.slot j = t.slot j := fun j hj => by rw [hslot, if_neg hj]
  have hlink : t'.Link = t.Link := by
    funext j x
    by_cases hj : j = i
    · rw [Link, Link, hj, hself]
    · rw [Link, Link, hother j hj]
  refine hc.add_key hk hhome (.inl rfl) hsize (by rw [hself])
    (fun j hj => by rw [hother j hj]) (fun j hj hu => (hother j hj).trans (hc.blank j hu)) ?_ ?_ ?_
    ?_ .refl
  · rw [hlink]
    exact fun a b hl => .inr (hc.target a b hl)
  · rw [hlink]
    exact hc.unshared
  · rw [hlink]
    exact hc.ranked
  · rw [Reaches, Reaches, hlink]
    exact fun _ _ hr => hr

/-- The links with a slot `f`, which was on no chain, put in after `i`. -/
def LinkedIn (t : Table) (i f a b : Nat) : Prop :=
  a = f ∧ t.Link i b ∨ a = i ∧ b = f ∨ a ≠ i ∧ t.Link a b

theorem Chained.linkedIn_unshared (hc : Chained h t) {f : Nat} (hf : ¬t.Used f) (a b x : Nat)
    (ha : t.LinkedIn i f a x) (hb : t.LinkedIn i f b x) : a = b := by
  have htoF : ∀ a, ¬t.Link a f := fun a hl => hf (hc.target a f hl)
  rcases ha with ⟨haf, ha⟩ | ⟨hai, hxf⟩ | ⟨hai, ha⟩ <;>
    rcases hb with ⟨hbf, hb⟩ | ⟨hbi, hxf'⟩ | ⟨hbi, hb⟩
  · rw [haf, hbf]
  · exact absurd (hxf' ▸ ha) (htoF i)
  · exact absurd (hc.unshared b i x hb ha) hbi
  · exact absurd (hxf ▸ hb) (htoF i)
  · rw [hai, hbi]
  · exact absurd (hxf ▸ hb) (htoF b)
  · exact absurd (hc.unshared a i x ha hb) hai
  · exact absurd (hxf' ▸ ha) (htoF a)
  · exact hc.unshared a b x ha hb

/-- The slot put in gets a rank between that of `i` and that of what came after it. -/
theorem Chained.linkedIn_ranked (hc : Chained h t) {f : Nat} (hf : ¬t.Used f) (hif : i ≠ f) :
    ∃ rank : Nat → Nat, ∀ a b, t.LinkedIn i f a b → rank a < rank b := by
  have htoF : ∀ a, ¬t.Link a f := fun a hl => hf (hc.target a f hl)
  obtain ⟨rank, hrank⟩ := hc.ranked
  refine ⟨fun x => if x = f then 2 * rank i + 1 else 2 * rank x, fun a b hl => ?_⟩
  dsimp only
  rcases hl with ⟨rfl, hl⟩ | ⟨rfl, rfl⟩ | ⟨-, hl⟩
  · have hb : b ≠ a := fun he => htoF i (he ▸ hl)
    have hlt := hrank i b hl
    rw [if_pos rfl, if_neg hb]
    omega
  · rw [if_neg hif, if_pos rfl]
    omega
  · have ha : a ≠ f := fun he => hf (he ▸ hc.source hl)
    have hb : b ≠ f := fun he => htoF a (he ▸ hl)
    have hlt := hrank a b hl
    rw [if_neg ha, if_neg hb]
    omega

/-- A key comes into a free slot `f`, chained in after the holder `i` of its main position. -/
theorem Chained.chainIn (hc : Chained h t) (hi : t.Used i) (hii : t.homeOf h i = i) {f : Nat}
    (hf : ¬t.Used f) {k : Value} (hk : k.IsKey) (hhome : k.mainPosition h t.slots.size = i)
    (hsize : t'.slots.size = t.slots.size)
    (hslot : ∀ j, t'.slot j =
      if j = f then { key := k, chain := (t.slot i).chain }
      else if j = i then { t.slot i with chain := some f } else t.slot j) :
    Chained h t' := by
  have hif : i ≠ f := fun he => hf (he ▸ hi)
  have hself : t'.slot f = { key := k, chain := (t.slot i).chain } := by rw [hslot, if_pos rfl]
  have hkey : ∀ j, j ≠ f → (t'.slot j).key = (t.slot j).key := fun j hj => by
    rw [hslot, if_neg hj]
    split_ifs with hji
    · rw [hji]
    · rfl
  have hlink : ∀ a b, t'.Link a b ↔ t.LinkedIn i f a b := by
    intro a b
    have hfb : ¬t.Link f b := fun hl => hf (hc.source hl)
    simp only [Link, LinkedIn] at hfb ⊢
    rw [hslot]
    by_cases haf : a = f
    · subst haf
      simp [hif.symm, hfb]
    · by_cases hai : a = i
      · simp [hai, hif, eq_comm]
      · simp [haf, hai]
  have hstep : t'.Link i f := (hlink i f).2 (.inr (.inl ⟨rfl, rfl⟩))
  refine hc.add_key hk hhome (.inr ⟨hif, hi, hii, hf⟩) hsize (by rw [hself]) hkey ?_ ?_ ?_ ?_
    ?_ (.single hstep)
  · intro j hjf hj
    have hji : j ≠ i := fun he => hj (he ▸ hi)
    rw [hslot, if_neg hjf, if_neg hji, hc.blank j hj]
  · intro a b hl
    rcases (hlink a b).1 hl with ⟨-, hl⟩ | ⟨-, rfl⟩ | ⟨-, hl⟩
    · exact .inr (hc.target i b hl)
    · exact .inl rfl
    · exact .inr (hc.target a b hl)
  · simp only [hlink]
    exact hc.linkedIn_unshared hf
  · simp only [hlink]
    exact hc.linkedIn_ranked hf hif
  · intro a b hab
    refine Relation.ReflTransGen.lift' id (fun a b hl => ?_) _ _ hab
    by_cases hai : a = i
    · -- what came after `i` is now one step further away
      subst hai
      exact .head hstep (.single ((hlink f b).2 (.inl ⟨rfl, hl⟩)))
    · exact .single ((hlink a b).2 (.inr (.inr ⟨hai, hl⟩)))

/-- The entry of a slot `i` that is not its main position changes places with a free slot `f`. No
main position of a used slot is concerned. -/
theorem Chained.swap (hc : Chained h t) (hii : t.homeOf h i ≠ i) {f : Nat}
    (hf : ¬t.Used f) (hsize : t'.slots.size = t.slots.size)
    (hslot : ∀ j, t'.slot (Equiv.swap i f j) =
      { t.slot j with chain := (t.slot j).chain.map (Equiv.swap i f) }) :
    Chained h t' := by
  generalize hσ : Equiv.swap i f = σ at hslot
  have hkey : ∀ j, (t'.slot (σ j)).key = (t.slot j).key := fun j => by rw [hslot]
  have hused : ∀ j, t'.Used (σ j) ↔ t.Used j := fun j => by simp only [Used, Slot.isFree, hkey]
  have hlink : ∀ a b, t'.Link (σ a) (σ b) ↔ t.Link a b := fun a b => by
    simp only [Link, hslot, Option.map_eq_some_iff, EmbeddingLike.apply_eq_iff_eq,
      exists_eq_right]
  -- main positions are neither `i`, which is not its own, nor `f`, which is free
  have hfixed : ∀ j, t.Used j → σ (t.homeOf h j) = t.homeOf h j := fun j hj => by
    have hni : t.homeOf h j ≠ i := fun he => hii (by rw [← he, hc.homeOf_homeOf hj])
    have hnf : t.homeOf h j ≠ f := fun he => hf (he ▸ hc.used_homeOf hj)
    rw [← hσ, Equiv.swap_apply_of_ne_of_ne hni hnf]
  have hhome : ∀ j, t.Used j → t'.homeOf h (σ j) = σ (t.homeOf h j) := fun j hj => by
    rw [hfixed j hj, homeOf, homeOf, hkey, hsize]
  constructor
  case size =>
    rw [hsize]
    exact hc.size
  case blank =>
    refine σ.surjective.forall.2 fun j hj => ?_
    rw [hslot, hc.blank j (fun hu => hj ((hused j).2 hu))]
    rfl
  case isKey =>
    refine σ.surjective.forall.2 fun j hj => ?_
    rw [hkey]
    exact hc.isKey j ((hused j).1 hj)
  case displaced =>
    refine σ.surjective.forall.2 fun j hj hne => ?_
    have hj := (hused j).1 hj
    rw [hhome j hj, σ.injective.ne_iff] at hne
    obtain ⟨hu, hh⟩ := hc.displaced j hj hne
    rw [hhome j hj, hhome _ hu, hused, hh]
    exact ⟨hu, rfl⟩
  case target =>
    exact σ.surjective.forall₂.2 fun a b hl => (hused b).2 (hc.target a b ((hlink a b).1 hl))
  case unshared =>
    refine σ.surjective.forall₃.2 fun a b x ha hb => ?_
    rw [hc.unshared a b x ((hlink a x).1 ha) ((hlink b x).1 hb)]
  case ranked =>
    obtain ⟨rank, hrank⟩ := hc.ranked
    refine ⟨rank ∘ σ.symm, σ.surjective.forall₂.2 fun a b hl => ?_⟩
    simpa using hrank a b ((hlink a b).1 hl)
  case reached =>
    refine σ.surjective.forall.2 fun j hj => ?_
    have hj := (hused j).1 hj
    rw [hhome j hj]
    exact Relation.ReflTransGen.lift σ (fun a b hl => (hlink a b).2 hl) _ _ (hc.reached j hj)

end LuaData.Table
