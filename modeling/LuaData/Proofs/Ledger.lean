import LuaData.Proofs.Equality
import Mathlib.Data.List.Forall2
import Mathlib.Data.List.Induction
import Mathlib.Data.List.Pairwise
import Mathlib.Data.List.Perm.Basic

/-!
# Ledgers

What a table means: a finite map from keys to values under raw equality, which also remembers since
when each key is present. A history of stores has one ledger, and two ledgers match if they hold the
same entries and agree on the order of those that no array part can take.
-/

namespace LuaData

/-- Entries under keys that differ, the longest present first. -/
abbrev Ledger := List (Value × Value)

namespace Ledger

def Holds (m : Ledger) (k v : Value) : Prop := ∃ e ∈ m, e.1.equal k = true ∧ e.2 = v

def lookup (m : Ledger) (k : Value) : Option Value :=
  (m.find? fun e => e.1.equal k).map Prod.snd

def overwrite (k v : Value) (e : Value × Value) : Value × Value :=
  if e.1.equal k then (e.1, v) else e

/-- Stores a value under a key. Nil takes the key out; a key that is present keeps its place, and
any other one goes to the end. -/
def store (m : Ledger) (k v : Value) : Ledger :=
  if v.isNil then m.filter fun e => !e.1.equal k
  else if m.any fun e => e.1.equal k then m.map (overwrite k v)
  else m ++ [(k, v)]

def storeAll (m : Ledger) (log : List (Value × Value)) : Ledger :=
  log.foldl (fun m e => m.store e.1 e.2) m

def ofLog (log : List (Value × Value)) : Ledger := storeAll [] log

structure Proper (m : Ledger) : Prop where
  isKey : ∀ e ∈ m, e.1.IsKey
  present : ∀ e ∈ m, e.2.isNil = false
  distinct : m.Pairwise fun a b => a.1.equal b.1 = false

theorem proper_nil : Proper [] := ⟨by simp, by simp, List.Pairwise.nil⟩

theorem Proper.sublist {m m' : Ledger} (h : Proper m) (hs : List.Sublist m' m) : Proper m' where
  isKey e he := h.isKey e (hs.subset he)
  present e he := h.present e (hs.subset he)
  distinct := h.distinct.sublist hs

/-- A key has one entry. -/
theorem Proper.eq_of_equal {m : Ledger} (h : Proper m) {a b : Value × Value} (ha : a ∈ m)
    (hb : b ∈ m) (he : a.1.equal b.1 = true) : a = b := by
  by_contra hne
  have hsymm : Std.Symm fun a b : Value × Value => a.1.equal b.1 = false :=
    ⟨fun a b hab => Value.equal_comm a.1 b.1 ▸ hab⟩
  exact Bool.false_ne_true ((h.distinct.forall ha hb hne).symm.trans he)

theorem lookup_eq_some_iff {m : Ledger} (h : Proper m) {k v : Value} :
    m.lookup k = some v ↔ m.Holds k v := by
  unfold lookup
  constructor
  · intro hv
    obtain ⟨e, he, rfl⟩ := Option.map_eq_some_iff.1 hv
    exact ⟨e, List.mem_of_find?_eq_some he, by simpa using List.find?_some he, rfl⟩
  · rintro ⟨e, he, hk, rfl⟩
    cases hf : m.find? fun e => e.1.equal k with
    | none => exact absurd hk (List.find?_eq_none.1 hf e he)
    | some e' =>
      have hk' : e'.1.equal k = true := by simpa using List.find?_some hf
      have hee : e'.1.equal e.1 = true := by rwa [Value.equal_right hk e'.1]
      rw [h.eq_of_equal (List.mem_of_find?_eq_some hf) he hee]
      rfl

theorem any_iff {m : Ledger} {k : Value} :
    (m.any fun e => e.1.equal k) = true ↔ ∃ v, m.Holds k v := by
  rw [List.any_eq_true]
  constructor
  · rintro ⟨e, he, hk⟩
    exact ⟨e.2, e, he, hk, rfl⟩
  · rintro ⟨-, e, he, hk, -⟩
    exact ⟨e, he, hk⟩

theorem holds_congr {m : Ledger} {k k' v : Value} (hk : k.equal k' = true) :
    m.Holds k v ↔ m.Holds k' v := by
  simp only [Holds, Value.equal_right hk]

theorem Holds.isKey {m : Ledger} (h : Proper m) {k v : Value} (hv : m.Holds k v) : k.IsKey := by
  obtain ⟨e, he, hk, -⟩ := hv
  exact (h.isKey e he).congr hk

@[simp] theorem holds_nil (k v : Value) : ¬Holds [] k v := by simp [Holds]

theorem holds_append {m m' : Ledger} {k v : Value} :
    Holds (m ++ m') k v ↔ m.Holds k v ∨ m'.Holds k v := by
  simp only [Holds, List.mem_append, or_and_right, exists_or]

theorem holds_singleton {e : Value × Value} {k v : Value} :
    Holds [e] k v ↔ e.1.equal k = true ∧ e.2 = v := by
  simp [Holds]

theorem holds_filter {m : Ledger} {p : Value → Bool} {k v : Value}
    (hp : ∀ a, a.equal k = true → p a = p k) :
    Holds (m.filter fun e => p e.1) k v ↔ p k = true ∧ m.Holds k v := by
  constructor
  · rintro ⟨e, he, hk, hv⟩
    rw [List.mem_filter] at he
    exact ⟨hp e.1 hk ▸ he.2, e, he.1, hk, hv⟩
  · rintro ⟨hpk, e, he, hk, hv⟩
    exact ⟨e, List.mem_filter.2 ⟨he, (hp e.1 hk).trans hpk⟩, hk, hv⟩

@[simp] theorem overwrite_fst (k v : Value) (e : Value × Value) : (overwrite k v e).1 = e.1 := by
  unfold overwrite
  split_ifs <;> rfl

theorem overwrite_snd (k v : Value) (e : Value × Value) :
    (overwrite k v e).2 = if e.1.equal k then v else e.2 := by
  unfold overwrite
  split_ifs <;> rfl

theorem store_nil {m : Ledger} {k v : Value} (hv : v.isNil = true) :
    m.store k v = m.filter fun e => !e.1.equal k := if_pos hv

theorem store_present {m : Ledger} {k v : Value} (hv : v.isNil = false)
    (hk : ∃ w, m.Holds k w) :
    m.store k v = m.map (overwrite k v) := by
  rw [store, if_neg (by simp [hv]), if_pos (any_iff.2 hk)]

theorem store_absent {m : Ledger} {k v : Value} (hv : v.isNil = false)
    (hk : ¬∃ w, m.Holds k w) : m.store k v = m ++ [(k, v)] := by
  rw [store, if_neg (by simp [hv]), if_neg (fun h => hk (any_iff.1 h))]

/-- Storing nil under an absent key changes nothing. -/
theorem store_nil_absent {m : Ledger} {k v : Value} (hv : v.isNil = true)
    (hk : ¬∃ w, m.Holds k w) : m.store k v = m := by
  rw [store_nil hv, List.filter_eq_self]
  intro e he
  rw [Bool.not_eq_true', Bool.eq_false_iff]
  exact fun h => hk ⟨e.2, e, he, h, rfl⟩

theorem holds_store {m : Ledger} {k v k' v' : Value} :
    (m.store k v).Holds k' v' ↔
      if k.equal k' then v.isNil = false ∧ v' = v else m.Holds k' v' := by
  by_cases hv : v.isNil = true
  · have hp : ∀ a : Value, a.equal k' = true → (!a.equal k) = !k'.equal k := fun a ha => by
      rw [Value.equal_left ha]
    rw [store_nil hv, holds_filter (p := fun a => !a.equal k) hp, Value.equal_comm k' k]
    split_ifs with he <;> simp [he, hv]
  rw [Bool.not_eq_true] at hv
  by_cases hp : ∃ w, m.Holds k w
  · rw [store_present hv hp]
    simp only [Holds, List.mem_map]
    -- the one entry under `k` is overwritten, with the key as it is spelled there
    split_ifs with he
    · constructor
      · rintro ⟨_, ⟨e, -, rfl⟩, hek, rfl⟩
        rw [overwrite_fst, ← Value.equal_right he] at hek
        exact ⟨hv, by rw [overwrite_snd, if_pos hek]⟩
      · rintro ⟨-, rfl⟩
        obtain ⟨w, e, hm, hek, -⟩ := hp
        refine ⟨overwrite k v' e, ⟨e, hm, rfl⟩, ?_, ?_⟩
        · rwa [overwrite_fst, ← Value.equal_right he]
        · rw [overwrite_snd, if_pos hek]
    · have hne : ∀ e : Value × Value, e.1.equal k' = true → overwrite k v e = e :=
        fun e hek => if_neg fun hc => he (by rwa [← Value.equal_left hc])
      constructor
      · rintro ⟨_, ⟨e, hm, rfl⟩, hek, hev⟩
        rw [overwrite_fst] at hek
        exact ⟨e, hm, hek, hne e hek ▸ hev⟩
      · rintro ⟨e, hm, hek, hev⟩
        exact ⟨e, ⟨e, hm, hne e hek⟩, hek, hev⟩
  · rw [store_absent hv hp, holds_append, holds_singleton]
    split_ifs with he
    · have hno : ¬m.Holds k' v' := fun h => hp ⟨v', (holds_congr he).2 h⟩
      simp only [hno, he, hv, eq_comm, false_or, true_and]
    · simp only [he, Bool.false_eq_true, false_and, or_false]

theorem Proper.store {m : Ledger} (h : Proper m) {k : Value} (v : Value) (hk : k.IsKey) :
    Proper (m.store k v) := by
  by_cases hv : v.isNil = true
  · rw [store_nil hv]
    exact h.sublist List.filter_sublist
  rw [Bool.not_eq_true] at hv
  by_cases hp : ∃ w, m.Holds k w
  · rw [store_present hv hp]
    refine ⟨?_, ?_, ?_⟩
    · intro e he
      obtain ⟨e, hm, rfl⟩ := List.mem_map.1 he
      exact overwrite_fst k v e ▸ h.isKey e hm
    · intro e he
      obtain ⟨e, hm, rfl⟩ := List.mem_map.1 he
      rw [overwrite_snd]
      split_ifs
      · exact hv
      · exact h.present e hm
    · rw [List.pairwise_map]
      exact h.distinct.imp fun {a b} hab => by rwa [overwrite_fst, overwrite_fst]
  · rw [store_absent hv hp]
    refine ⟨?_, ?_, ?_⟩
    · intro e he
      rcases List.mem_append.1 he with he | he
      · exact h.isKey e he
      · exact List.mem_singleton.1 he ▸ hk
    · intro e he
      rcases List.mem_append.1 he with he | he
      · exact h.present e he
      · exact List.mem_singleton.1 he ▸ hv
    · rw [List.pairwise_append]
      refine ⟨h.distinct, List.pairwise_singleton _ _, fun a ha b hb => ?_⟩
      rw [List.mem_singleton.1 hb, Bool.eq_false_iff]
      exact fun he => hp ⟨a.2, a, ha, he, rfl⟩

theorem not_holds_of_ne {m : Ledger} {k : Value} (hm : ∀ e ∈ m, e.1.equal k = false) :
    ¬∃ w, m.Holds k w := by
  rintro ⟨w, e, he, hk, -⟩
  rw [hm e he] at hk
  cases hk

/-- A store under an absent key adds an entry at the end, if any. -/
theorem store_end {m : Ledger} {k v : Value} (hm : ∀ e ∈ m, e.1.equal k = false) :
    m.store k v = m ++ if v.isNil then [] else [(k, v)] := by
  have hno := not_holds_of_ne hm
  split_ifs with hv
  · rw [store_nil_absent hv hno, List.append_nil]
  · exact store_absent (Bool.not_eq_true _ ▸ hv) hno

/-- A store under a present key changes one entry. -/
theorem store_middle {as bs : Ledger} {e : Value × Value} {k v : Value} (he : e.1.equal k = true)
    (ha : ∀ a ∈ as, a.1.equal k = false) (hb : ∀ b ∈ bs, b.1.equal k = false) :
    Ledger.store (as ++ e :: bs) k v = as ++ ((if v.isNil then [] else [(e.1, v)]) ++ bs) := by
  have hid : ∀ m : Ledger, (∀ a ∈ m, a.1.equal k = false) →
      (m.filter fun a => !a.1.equal k) = m ∧ m.map (overwrite k v) = m := fun m hm => by
    constructor
    · exact List.filter_eq_self.2 fun a ha => by rw [hm a ha]; rfl
    · refine (List.map_congr_left fun a ha => ?_).trans (List.map_id m)
      exact if_neg (by rw [hm a ha]; exact Bool.false_ne_true)
  split_ifs with hv
  · rw [store_nil hv, List.filter_append, List.filter_cons, (hid as ha).1, (hid bs hb).1]
    simp [he]
  · have hp : ∃ w, Holds (as ++ e :: bs) k w := ⟨e.2, e, by simp, he, rfl⟩
    rw [store_present (Bool.not_eq_true _ ▸ hv) hp, List.map_append, List.map_cons,
      (hid as ha).2, (hid bs hb).2, overwrite, if_pos he]
    rfl

/-- A store is read back under equal keys, and other keys keep what they have. -/
theorem Proper.lookup_store {m : Ledger} (h : Proper m) {k : Value} (hk : k.IsKey)
    (v k' : Value) :
    (m.store k v).lookup k' = if k.equal k' then v.present? else m.lookup k' := by
  ext w
  rw [lookup_eq_some_iff (h.store v hk), holds_store]
  split_ifs
  · rw [Value.present?]
    split_ifs with hv
    · simp [hv]
    · simp [hv, eq_comm]
  · rw [lookup_eq_some_iff h]

/-- Stores under keys of one kind do not touch the entries of the other. -/
theorem filter_store {m : Ledger} {p : Value → Bool} {k v : Value}
    (hp : ∀ a, a.equal k = true → p a = p k) :
    (m.store k v).filter (fun e => p e.1) =
      if p k then Ledger.store (m.filter fun e => p e.1) k v else m.filter fun e => p e.1 := by
  have hany : p k = true →
      ((∃ w, Holds (m.filter fun e => p e.1) k w) ↔ ∃ w, m.Holds k w) := fun hpk => by
    simp only [holds_filter hp, hpk, true_and]
  by_cases hv : v.isNil = true
  · rw [store_nil hv, List.filter_filter]
    split_ifs with hpk
    · rw [store_nil hv, List.filter_filter]
      exact List.filter_congr fun e _ => Bool.and_comm _ _
    · refine List.filter_congr fun e _ => ?_
      cases he : e.1.equal k
      · simp
      · simp [hp _ he, hpk]
  rw [Bool.not_eq_true] at hv
  by_cases hm : ∃ w, m.Holds k w
  · have hcomp : (fun e : Value × Value => p e.1) ∘ overwrite k v = fun e => p e.1 :=
      funext fun e => congrArg p (overwrite_fst k v e)
    rw [store_present hv hm, List.filter_map, hcomp]
    split_ifs with hpk
    · rw [store_present hv ((hany hpk).2 hm)]
    · conv_rhs => rw [← List.map_id (m.filter fun e => p e.1)]
      refine List.map_congr_left fun e he => if_neg fun hek => hpk ?_
      exact hp e.1 hek ▸ (List.mem_filter.1 he).2
  · rw [store_absent hv hm, List.filter_append]
    split_ifs with hpk
    · rw [store_absent hv (fun h => hm ((hany hpk).1 h)), List.filter_singleton]
      simp [hpk]
    · simp [hpk]

def Alike (a b : Value × Value) : Prop := a.1.equal b.1 = true ∧ a.2 = b.2

theorem alike_refl {e : Value × Value} (h : e.1.IsKey) : Alike e e := ⟨h.equal_self, rfl⟩

theorem Alike.trans {a b c : Value × Value} (h : Alike a b) (h' : Alike b c) : Alike a c :=
  ⟨Value.equal_trans h.1 h'.1, h.2.trans h'.2⟩

theorem forall₂_alike_refl {m : Ledger} (h : Proper m) : List.Forall₂ Alike m m :=
  List.forall₂_same.2 fun e he => alike_refl (h.isKey e he)

theorem forall₂_alike_trans {m m' m'' : Ledger} (h : List.Forall₂ Alike m m')
    (h' : List.Forall₂ Alike m' m'') : List.Forall₂ Alike m m'' := by
  induction h generalizing m'' with
  | nil => exact h'
  | cons ha _ ih =>
    cases h' with
    | cons ha' ht' => exact .cons (ha.trans ha') (ih ht')

theorem holds_of_forall₂ {m m' : Ledger} (h : List.Forall₂ Alike m m') {k v : Value} :
    m.Holds k v ↔ m'.Holds k v := by
  induction h with
  | nil => rfl
  | cons ha _ ih =>
    simp only [Holds, List.mem_cons, or_and_right, exists_or, exists_eq_left] at ih ⊢
    rw [ih, ha.2, Value.equal_left ha.1]

theorem forall₂_store {m m' : Ledger} {k v : Value} (hkey : k.IsKey)
    (h : List.Forall₂ Alike m m') :
    List.Forall₂ Alike (m.store k v) (m'.store k v) := by
  by_cases hv : v.isNil = true
  · rw [store_nil hv, store_nil hv]
    induction h with
    | nil => exact .nil
    | @cons a b _ _ ha _ ih =>
      rw [List.filter_cons, List.filter_cons, Value.equal_left ha.1]
      split_ifs
      · exact .cons ha ih
      · exact ih
  rw [Bool.not_eq_true] at hv
  by_cases hk : ∃ w, m.Holds k w
  · have hk' : ∃ w, m'.Holds k w := hk.imp fun w => (holds_of_forall₂ h).1
    rw [store_present hv hk, store_present hv hk', List.forall₂_map_left_iff,
      List.forall₂_map_right_iff]
    refine h.imp fun a b ha => ⟨?_, ?_⟩
    · rw [overwrite_fst, overwrite_fst]
      exact ha.1
    · rw [overwrite_snd, overwrite_snd, Value.equal_left ha.1, ha.2]
  · have hk' : ¬∃ w, m'.Holds k w := fun h' => hk (h'.imp fun w => (holds_of_forall₂ h).2)
    rw [store_absent hv hk, store_absent hv hk']
    exact List.rel_append h (.cons (alike_refl hkey) .nil)

/-- Stores under equal keys differ at most in the spelling of a key. -/
theorem forall₂_store_key {m : Ledger} (hm : Proper m) {k k' v : Value}
    (he : k.equal k' = true) : List.Forall₂ Alike (m.store k v) (m.store k' v) := by
  by_cases hv : v.isNil = true
  · simp only [store_nil hv, Value.equal_right he]
    exact forall₂_alike_refl (hm.sublist List.filter_sublist)
  rw [Bool.not_eq_true] at hv
  by_cases hk : ∃ w, m.Holds k w
  · have hk' : ∃ w, m.Holds k' w := hk.imp fun w => (holds_congr he).1
    have hover : overwrite k v = overwrite k' v := funext fun e => by
      simp only [overwrite, Value.equal_right he]
    obtain ⟨w, hw⟩ := hk'
    rw [store_present hv hk, store_present hv ⟨w, hw⟩, hover,
      ← store_present hv ⟨w, hw⟩]
    exact forall₂_alike_refl (hm.store v (hw.isKey hm))
  · have hk' : ¬∃ w, m.Holds k' w := fun h' => hk (h'.imp fun w => (holds_congr he).2)
    rw [store_absent hv hk, store_absent hv hk']
    exact List.rel_append (forall₂_alike_refl hm) (.cons ⟨he, rfl⟩ .nil)

/-- Ledgers with the same entries have them in some common order. -/
theorem exists_perm_alike {m m' : Ledger} (h : Proper m) (h' : Proper m')
    (hm : ∀ k v, m.Holds k v ↔ m'.Holds k v) : ∃ es, es.Perm m' ∧ List.Forall₂ Alike m es := by
  induction m generalizing m' with
  | nil =>
    have hnil : m' = [] := by
      refine List.eq_nil_iff_forall_not_mem.2 fun e he => ?_
      exact holds_nil e.1 e.2 ((hm e.1 e.2).2 ⟨e, he, (h'.isKey e he).equal_self, rfl⟩)
    exact ⟨[], hnil ▸ List.Perm.nil, .nil⟩
  | cons a m ih =>
    have ha : a.1.IsKey := h.isKey a List.mem_cons_self
    obtain ⟨b, hb, hba, hv⟩ := (hm a.1 a.2).1 ⟨a, List.mem_cons_self, ha.equal_self, rfl⟩
    obtain ⟨xs, ys, rfl⟩ := List.append_of_mem hb
    have hperm : (b :: (xs ++ ys)).Perm (xs ++ b :: ys) := List.perm_middle.symm
    have hd := List.pairwise_cons.1 h.distinct
    have hd' := List.pairwise_cons.1 (hperm.symm.pairwise_iff
      (fun {c d} hcd => Value.equal_comm c.1 d.1 ▸ hcd) |>.1 h'.distinct)
    -- without the entries under the key of `a`, both ledgers still hold the same
    have hrest : ∀ k v, Holds m k v ↔ Holds (xs ++ ys) k v := by
      intro k v
      have hk := hm k v
      have hcons : Holds (xs ++ b :: ys) k v ↔ Holds (b :: (xs ++ ys)) k v := by
        simp only [Holds, hperm.mem_iff]
      rw [hcons] at hk
      simp only [Holds, List.mem_cons, or_and_right, exists_or, exists_eq_left] at hk ⊢
      rw [← hv, Value.equal_left hba] at hk
      by_cases hak : a.1.equal k = true
      · have hno : ∀ m'' : Ledger, (∀ e ∈ m'', a.1.equal e.1 = false) →
            ¬∃ e, e ∈ m'' ∧ e.1.equal k = true ∧ e.2 = v := by
          rintro m'' hne ⟨e, he, hek, -⟩
          rw [← Value.equal_right hak, Value.equal_comm, hne e he] at hek
          cases hek
        refine iff_of_false (hno m hd.1) (hno (xs ++ ys) fun e he => ?_)
        rw [← Value.equal_left hba]
        exact hd'.1 e he
      · simpa [hak] using hk
    have hsub : List.Sublist (xs ++ ys) (xs ++ b :: ys) :=
      List.Sublist.append_left (List.sublist_cons_self b ys) xs
    obtain ⟨es, hes, hal⟩ := ih (h.sublist (List.sublist_cons_self a m)) (h'.sublist hsub) hrest
    refine ⟨b :: es, (hes.cons b).trans hperm, .cons ⟨Value.equal_comm b.1 a.1 ▸ hba, hv.symm⟩ hal⟩

end Ledger

def Value.neverInArray (k : Value) : Bool := (Table.arrayCandidate? k).isNone

/-- The array part takes the integers `1, …, maxArraySize` at most. -/
theorem Value.neverInArray_iff {k : Value} : k.neverInArray = true ↔
    ∀ n, k.toInteger? = some n → ¬(1 ≤ n ∧ n ≤ Table.maxArraySize) := by
  unfold neverInArray Table.arrayCandidate?
  cases k.toInteger? with
  | none => simp
  | some m =>
    dsimp only
    simp only [Option.some.injEq, forall_eq']
    split_ifs with hm
    · exact iff_of_false (by simp) (not_not_intro hm)
    · exact iff_of_true rfl hm

theorem Value.neverInArray_congr {a b : Value} (h : a.equal b = true) :
    a.neverInArray = b.neverInArray := by
  simp only [neverInArray, Table.arrayCandidate?, toInteger?_congr h]

namespace Ledger

def outside (m : Ledger) : Ledger := m.filter fun e => e.1.neverInArray

/-- The same entries, and those that no array part takes in the same order. -/
structure Matches (m m' : Ledger) : Prop where
  holds : ∀ k v, m.Holds k v ↔ m'.Holds k v
  outside : List.Forall₂ Alike m.outside m'.outside

theorem matches_refl {m : Ledger} (h : Proper m) : Matches m m :=
  ⟨fun _ _ => Iff.rfl, forall₂_alike_refl (h.sublist List.filter_sublist)⟩

theorem Matches.trans {m m' m'' : Ledger} (h : Matches m m') (h' : Matches m' m'') :
    Matches m m'' :=
  ⟨fun k v => (h.holds k v).trans (h'.holds k v), forall₂_alike_trans h.outside h'.outside⟩

theorem outside_store {m : Ledger} {k v : Value} :
    (m.store k v).outside = if k.neverInArray then m.outside.store k v else m.outside :=
  filter_store fun _ => Value.neverInArray_congr

theorem Matches.store {m m' : Ledger} (h : Matches m m') {k : Value} (v : Value)
    (hk : k.IsKey) : Matches (m.store k v) (m'.store k v) := by
  constructor
  · intro k' v'
    rw [holds_store, holds_store, h.holds]
  · rw [outside_store, outside_store]
    split_ifs
    · exact forall₂_store hk h.outside
    · exact h.outside

theorem Matches.lookup_eq {m m' : Ledger} (hm : Matches m m') (h : Proper m) (h' : Proper m')
    (k : Value) : m.lookup k = m'.lookup k := by
  ext v
  rw [lookup_eq_some_iff h, lookup_eq_some_iff h', hm.holds]

theorem Matches.length_eq {m m' : Ledger} (hm : Matches m m') (h : Proper m) (h' : Proper m') :
    m.length = m'.length := by
  obtain ⟨es, hp, hal⟩ := exists_perm_alike h h' hm.holds
  exact hal.length_eq.trans hp.length_eq

/-- Stores under keys, made one after the other, keep a ledger proper. -/
theorem Proper.storeAll {m : Ledger} (h : Proper m) {log : List (Value × Value)}
    (hlog : ∀ e ∈ log, e.1.IsKey) : Proper (m.storeAll log) := by
  induction log generalizing m with
  | nil => exact h
  | cons e log ih =>
    exact ih (h.store e.2 (hlog e List.mem_cons_self)) fun e' he =>
      hlog e' (List.mem_cons_of_mem e he)

theorem Matches.storeAll {m m' : Ledger} (h : Matches m m') {log : List (Value × Value)}
    (hlog : ∀ e ∈ log, e.1.IsKey) : Matches (m.storeAll log) (m'.storeAll log) := by
  induction log generalizing m m' with
  | nil => exact h
  | cons e log ih =>
    exact ih (h.store e.2 (hlog e List.mem_cons_self)) fun e' he =>
      hlog e' (List.mem_cons_of_mem e he)

/-- What a ledger holds after stores is one of them, or it was there and none of them concerned
it. -/
theorem holds_of_storeAll {m : Ledger} {log : List (Value × Value)} {k v : Value}
    (h : (m.storeAll log).Holds k v) : (∃ e ∈ log, e.1.equal k = true ∧ e.2 = v) ∨
      (∀ e ∈ log, e.1.equal k = false) ∧ m.Holds k v := by
  induction log generalizing m with
  | nil => exact .inr ⟨fun e he => absurd he List.not_mem_nil, h⟩
  | cons e log ih =>
    rcases ih h with ⟨e', he', hek, hev⟩ | ⟨hne, hholds⟩
    · exact .inl ⟨e', List.mem_cons_of_mem e he', hek, hev⟩
    rw [holds_store] at hholds
    split_ifs at hholds with hek
    · exact .inl ⟨e, List.mem_cons_self, hek, hholds.2.symm⟩
    · refine .inr ⟨fun e' he' => ?_, hholds⟩
      rcases List.mem_cons.1 he' with rfl | he'
      · exact Bool.not_eq_true _ ▸ hek
      · exact hne e' he'

theorem storeAll_append (m : Ledger) (log log' : List (Value × Value)) :
    m.storeAll (log ++ log') = (m.storeAll log).storeAll log' := List.foldl_append

/-- Stores under other keys leave what is read. -/
theorem Proper.lookup_storeAll_of_ne {m : Ledger} {log : List (Value × Value)} {k : Value}
    (h : Proper m) (hlog : ∀ e ∈ log, e.1.IsKey)
    (hne : ∀ e ∈ log, e.1.equal k = false) : (m.storeAll log).lookup k = m.lookup k := by
  induction log generalizing m with
  | nil => rfl
  | cons e log ih =>
    have hkey := hlog e List.mem_cons_self
    have hother : ¬e.1.equal k = true := by simp [hne e List.mem_cons_self]
    calc (m.storeAll (e :: log)).lookup k
      _ = (m.store e.1 e.2).lookup k := ih (h.store e.2 hkey)
          (fun e' he' => hlog e' (List.mem_cons_of_mem e he'))
          fun e' he' => hne e' (List.mem_cons_of_mem e he')
      _ = m.lookup k := by rw [h.lookup_store hkey, if_neg hother]

/-- The last store under a key is the one that is read back. -/
theorem Proper.lookup_storeAll_last {m : Ledger} {log log' : List (Value × Value)}
    {e : Value × Value} {k : Value} (h : Proper m) (hlog : ∀ e' ∈ log ++ e :: log', e'.1.IsKey)
    (he : e.1.equal k = true) (hne : ∀ e' ∈ log', e'.1.equal k = false) :
    (m.storeAll (log ++ e :: log')).lookup k = e.2.present? := by
  obtain ⟨hbefore, hkey, hafter⟩ : (∀ e' ∈ log, e'.1.IsKey) ∧ e.1.IsKey ∧
      ∀ e' ∈ log', e'.1.IsKey := by
    rwa [List.forall_mem_append, List.forall_mem_cons] at hlog
  have hm := h.storeAll hbefore
  calc (m.storeAll (log ++ e :: log')).lookup k
    _ = (((m.storeAll log).store e.1 e.2).storeAll log').lookup k := by rw [storeAll_append]; rfl
    _ = ((m.storeAll log).store e.1 e.2).lookup k :=
        (hm.store e.2 hkey).lookup_storeAll_of_ne hafter hne
    _ = e.2.present? := by rw [hm.lookup_store hkey, if_pos he]

theorem ofLog_append (log log' : List (Value × Value)) :
    ofLog (log ++ log') = (ofLog log).storeAll log' := storeAll_append ..

def sinceRev : List (Value × Value) → Value → Option Nat
  | [], _ => none
  | e :: older, k =>
    if e.1.equal k then if e.2.isNil then none else (sinceRev older k).or (some older.length)
    else sinceRev older k

/-- The number of the store in a history that made `k` present, if it still is: the latest one that
found it absent. -/
def since (log : List (Value × Value)) (k : Value) : Option Nat := sinceRev log.reverse k

theorem since_concat (log : List (Value × Value)) (e : Value × Value) (k : Value) :
    since (log ++ [e]) k =
      if e.1.equal k then if e.2.isNil then none else (since log k).or (some log.length)
      else since log k := by
  simp [since, sinceRev]

theorem since_congr (log : List (Value × Value)) {a b : Value} (h : a.equal b = true) :
    since log a = since log b := by
  unfold since
  induction log.reverse with
  | nil => rfl
  | cons e log ih => rw [sinceRev, sinceRev, Value.equal_right h, ih]

theorem since_lt {log : List (Value × Value)} {k : Value} {i : Nat} (h : since log k = some i) :
    i < log.length := by
  induction log using List.reverseRecOn generalizing i with
  | nil => cases h
  | append_singleton log e ih =>
    rw [since_concat] at h
    rw [List.length_append, List.length_singleton]
    split_ifs at h
    · cases hs : since log k with
      | none =>
        rw [hs] at h
        cases h
        omega
      | some j =>
        rw [hs] at h
        cases h
        exact (ih hs).trans (by omega)
    · exact (ih h).trans (by omega)

theorem proper_ofLog {log : List (Value × Value)} (hlog : ∀ e ∈ log, e.1.IsKey) :
    Proper (ofLog log) := proper_nil.storeAll hlog

theorem ofLog_concat (log : List (Value × Value)) (e : Value × Value) :
    ofLog (log ++ [e]) = (ofLog log).store e.1 e.2 := ofLog_append log [e]

/-- The keys of a ledger are those that its history has left present. -/
theorem isSome_since_iff (log : List (Value × Value)) (k : Value) :
    (since log k).isSome = true ↔ ∃ v, (ofLog log).Holds k v := by
  induction log using List.reverseRecOn with
  | nil => simp [since, sinceRev, ofLog, storeAll]
  | append_singleton log e ih =>
    simp only [ofLog_concat, holds_store, since_concat]
    split_ifs with hk hv
    · simp [hv]
    · simp [hv]
    · exact ih

def PresentBeyond (log : List (Value × Value)) (k : Value) (i : Nat) : Prop :=
  ∀ j, i < j → j ≤ log.length → ∃ v, (ofLog (log.take j)).Holds k v

/-- Presence after the last store is the only thing that the history did not know before. -/
theorem presentBeyond_concat (log : List (Value × Value)) (e : Value × Value) (k : Value)
    (i : Nat) : PresentBeyond (log ++ [e]) k i ↔
      PresentBeyond log k i ∧ (i ≤ log.length → (since (log ++ [e]) k).isSome = true) := by
  have htake : ∀ j ≤ log.length, (log ++ [e]).take j = log.take j :=
    fun j hj => List.take_append_of_le_length hj
  have hall : (log ++ [e]).take (log.length + 1) = log ++ [e] :=
    List.take_of_length_le (by simp)
  unfold PresentBeyond
  rw [isSome_since_iff, List.length_append, List.length_singleton]
  constructor
  · intro hyes
    refine ⟨fun j hj hle => ?_, fun hi => ?_⟩
    · have hj' := hyes j hj (by omega)
      rwa [htake j hle] at hj'
    · have hn := hyes (log.length + 1) (by omega) le_rfl
      rwa [hall] at hn
  · rintro ⟨hyes, hn⟩ j hj hle
    rcases Nat.lt_or_ge log.length j with hl | hl
    · obtain rfl : j = log.length + 1 := by omega
      rw [hall]
      exact hn (by omega)
    · rw [htake j hl]
      exact hyes j hj hl

/-- Since the store of that number, which found it absent, the key has been present. -/
theorem since_eq_some_iff (log : List (Value × Value)) (k : Value) (i : Nat) :
    since log k = some i ↔
      i < log.length ∧ (¬∃ v, (ofLog (log.take i)).Holds k v) ∧ PresentBeyond log k i := by
  induction log using List.reverseRecOn with
  | nil => simp [since, sinceRev]
  | append_singleton log e ih =>
    have htake : ∀ j ≤ log.length, (log ++ [e]).take j = log.take j :=
      fun j hj => List.take_append_of_le_length hj
    rw [presentBeyond_concat, List.length_append, List.length_singleton]
    -- the last store is the one that counts only if it found the key absent
    rcases Nat.lt_trichotomy i log.length with hi | rfl | hi
    · have hold := ih
      simp only [hi, true_and] at hold
      rw [htake i hi.le, ← and_assoc, ← and_assoc, and_assoc (a := i < log.length + 1), ← hold,
        since_concat]
      split_ifs with hk hv
      · simp [hi.le]
      · cases hs : since log k <;> simp [hi.le, hi.trans (Nat.lt_succ_self _)]
        omega
      · cases hs : since log k <;> simp [hi.le, hi.trans (Nat.lt_succ_self _)]
    · have hbeyond : PresentBeyond log k log.length := fun j hj hle => absurd hle (by omega)
      rw [htake log.length le_rfl, List.take_length, ← isSome_since_iff log k, since_concat]
      split_ifs with hk hv
      · simp
      · cases hs : since log k with
        | none => simp [hbeyond]
        | some j => simp [(since_lt hs).ne]
      · cases hs : since log k with
        | none => simp
        | some j => simp [(since_lt hs).ne]
    · refine iff_of_false (fun hs => ?_) (by omega)
      have hlt := since_lt hs
      rw [List.length_append, List.length_singleton] at hlt
      omega

/-- `m` names its keys in the order in which `log` made them present. -/
def Chronological (log : List (Value × Value)) (m : Ledger) : Prop :=
  m.Pairwise fun a b => ∃ i j, since log a.1 = some i ∧ since log b.1 = some j ∧ i < j

/-- A store does not change since when the keys that stay present are. -/
theorem since_concat_of_holds {log : List (Value × Value)} {e : Value × Value} {k v : Value}
    (hlog : (ofLog log).Holds k v) (hk : e.1.equal k = true → e.2.isNil = false) :
    since (log ++ [e]) k = since log k := by
  obtain ⟨i, hi⟩ := Option.isSome_iff_exists.1 ((isSome_since_iff log k).2 ⟨v, hlog⟩)
  rw [since_concat]
  split_ifs with h h'
  · simp [hk h] at h'
  · rw [hi, Option.some_or]
  · rfl

theorem Chronological.sublist {log : List (Value × Value)} {m m' : Ledger}
    (h : Chronological log m) (hs : List.Sublist m' m) : Chronological log m' :=
  List.Pairwise.sublist hs h

theorem Chronological.congr {log log' : List (Value × Value)} {m : Ledger}
    (h : Chronological log m) (hs : ∀ e ∈ m, since log' e.1 = since log e.1) :
    Chronological log' m := by
  refine List.Pairwise.imp_of_mem (fun {a b} ha hb hab => ?_) h
  rwa [hs a ha, hs b hb]

theorem Chronological.of_forall₂ {log : List (Value × Value)} {m m' : Ledger}
    (h : Chronological log m') (hm : List.Forall₂ Alike m m') : Chronological log m := by
  have hmap : m.map (fun e => since log e.1) = m'.map fun e => since log e.1 := by
    induction hm with
    | nil => rfl
    | cons ha _ ih =>
      rw [List.map_cons, List.map_cons, since_congr log ha.1, ih (List.Pairwise.of_cons h)]
  have hp : (m'.map fun e => since log e.1).Pairwise
      fun x y => ∃ i j, x = some i ∧ y = some j ∧ i < j := List.pairwise_map.2 h
  rw [← hmap] at hp
  exact List.pairwise_map.1 hp

/-- The ledger of a history names its keys in the order in which they became present. -/
theorem chronological_ofLog {log : List (Value × Value)} (hlog : ∀ e ∈ log, e.1.IsKey) :
    Chronological log (ofLog log) := by
  induction log using List.reverseRecOn with
  | nil => exact List.Pairwise.nil
  | append_singleton log e ih =>
    have hlog' : ∀ e ∈ log, e.1.IsKey := fun e' he => hlog e' (List.mem_append_left _ he)
    have hm := proper_ofLog hlog'
    have hold : ∀ a ∈ ofLog log, (e.1.equal a.1 = true → e.2.isNil = false) →
        since (log ++ [e]) a.1 = since log a.1 := fun a ha =>
      since_concat_of_holds ⟨a, ha, (hm.isKey a ha).equal_self, rfl⟩
    rw [ofLog_concat]
    by_cases hv : e.2.isNil = true
    · rw [store_nil hv]
      refine ((ih hlog').sublist List.filter_sublist).congr fun a ha => ?_
      obtain ⟨ha, hne⟩ := List.mem_filter.1 ha
      rw [Value.equal_comm, Bool.not_eq_true'] at hne
      exact hold a ha fun he => absurd he (by simp [hne])
    rw [Bool.not_eq_true] at hv
    by_cases hk : ∃ w, (ofLog log).Holds e.1 w
    · rw [store_present hv hk]
      refine List.pairwise_map.2 (((ih hlog').congr fun a ha => hold a ha fun _ => hv).imp ?_)
      rintro a b hab
      rwa [overwrite_fst, overwrite_fst]
    · rw [store_absent hv hk]
      refine List.pairwise_append.2 ⟨(ih hlog').congr fun a ha => hold a ha fun _ => hv,
        List.pairwise_singleton _ _, fun a ha b hb => ?_⟩
      obtain ⟨i, hi⟩ := Option.isSome_iff_exists.1 ((isSome_since_iff log a.1).2
        ⟨a.2, a, ha, (hm.isKey a ha).equal_self, rfl⟩)
      have hnone : since log e.1 = none := by
        rw [← Option.not_isSome_iff_eq_none]
        exact fun h => hk ((isSome_since_iff log e.1).1 h)
      have hkey : e.1.equal e.1 = true :=
        (hlog e (List.mem_append_right _ (List.mem_singleton_self e))).equal_self
      -- the new entry is present since the last store, and the others since earlier ones
      refine ⟨i, log.length, (hold a ha fun _ => hv).trans hi, ?_, since_lt hi⟩
      rw [List.mem_singleton.1 hb]
      simp only [since_concat, hkey, hv, hnone, if_true, Bool.false_eq_true, if_false,
        Option.none_or]

end Ledger

end LuaData
