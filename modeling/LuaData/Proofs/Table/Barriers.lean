import LuaData.Proofs.Table.Metatable
import LuaData.Proofs.Table.Reports

namespace LuaData.Table

open Collector Ledger

variable {h : SeededHash} {k v : Value} {c : Collector} {vs : List Value}

def Action.made (h : StringHash) (s : Account) : Action → List (Value × Value)
  | operate op => op.made (op.apply h s.table s.collector)
  | setMetatable _ => []
  | createString _ => []

def Action.given (h : StringHash) (s : Account) : Action → List Value
  | operate op => (op.made (op.apply h s.table s.collector)).map Prod.snd
  | setMetatable (some o) => [.object o]
  | setMetatable none => []
  | createString _ => []

/-- Stores through cells are reported by those who make them, not by the table. -/
def Action.Reporting (x : Action) : Prop := ∀ k v, x ≠ .operate (.setCell k v)

variable {s : Account} {x : Action}

theorem Valid.reports_step (hv : Valid h s.table) (hx : x.Reporting) :
    Reports s.table s.collector (s.step h x).table (s.step h x).collector (x.given h s) := by
  cases x with
  | operate op => exact hv.reports_apply s.collector op fun k v heq => hx k v (heq ▸ rfl)
  | setMetatable meta? =>
    refine reports_of_notes ?_ fun k _ => (holdsKey_congr rfl).1
    cases meta? with
    | none => exact .refl _
    | some o => exact s.collector.notes_barrier rfl
  | createString bytes =>
    exact reports_of_notes (s.collector.notes_createString bytes) fun _ _ => id

theorem Action.mem_given {e : Value × Value} (he : e ∈ x.made h s) : e.2 ∈ x.given h s := by
  cases x with
  | operate op => exact List.mem_map_of_mem he
  | setMetatable meta? => cases he
  | createString bytes => cases he

/-- What a table holds after an action has been stored by it, or was there and has been left
alone. -/
theorem Valid.holds_step (hv : Valid h s.table) (x : Action)
    (hholds : (s.step h x).table.contents.Holds k v) :
    (∃ e ∈ x.made h s, e.1.equal k = true ∧ e.2 = v) ∨
      (∀ e ∈ x.made h s, e.1.equal k = false) ∧ s.table.contents.Holds k v := by
  have hidle : s.table.contents.Holds k v →
      (∃ e ∈ ([] : List (Value × Value)), e.1.equal k = true ∧ e.2 = v) ∨
        (∀ e ∈ ([] : List (Value × Value)), e.1.equal k = false) ∧ s.table.contents.Holds k v :=
    fun hholds => .inr ⟨fun e he => absurd he List.not_mem_nil, hholds⟩
  cases x with
  | operate op =>
    have hp := hv.performs_apply s.collector op
    rw [Account.step] at hholds
    rw [Action.made, Operation.made]
    generalize op.apply h s.table s.collector = o at hp hholds ⊢
    obtain ⟨r, t₁, c₁⟩ := o
    cases r with
    | ok y => exact holds_of_storeAll (((hp.done y rfl).holds k v).1 hholds)
    | error e => exact hidle (((hp.failed e rfl).holds k v).1 hholds)
  | setMetatable meta? =>
    have hcontents : (s.step h (.setMetatable meta?)).table.contents = s.table.contents :=
      contents_congr rfl rfl rfl
    exact hidle (hcontents ▸ hholds)
  | createString bytes => exact hidle hholds

namespace Account

section Run

variable (h : StringHash) (s : Account) (actions : List Action)

def before (i : Nat) : Account := s.run h (actions.take i)

def madeBy (i : Nat) : List (Value × Value) :=
  match actions[i]? with
  | some x => x.made h (s.before h actions i)
  | none => []

def NamedBy (i : Nat) (v : Value) : Prop :=
  ∃ es, (s.before h actions (i + 1)).collector.events.toList =
    (s.before h actions i).collector.events.toList ++ es ∧ .barrier .table v ∈ es

def Silent (i : Nat) : Prop :=
  ∃ es, (s.before h actions (i + 1)).collector.events.toList =
    (s.before h actions i).collector.events.toList ++ es ∧ ∀ owner v, .barrier owner v ∉ es

/-- The action `i` of a run stores `v` under the key `k`, and no later one stores there. -/
structure StoredBy (i : Nat) (k v : Value) : Prop where
  lt : i < actions.length
  made : ∃ e ∈ s.madeBy h actions i, e.1.equal k = true ∧ e.2 = v
  last : ∀ j, i < j → ∀ e ∈ s.madeBy h actions j, e.1.equal k = false

/-- The action `i` of a run gives the key `k` a slot, which it has from then on. -/
structure EnteredBy (i : Nat) (k : Value) : Prop where
  lt : i < actions.length
  absent : ¬(s.before h actions i).table.HoldsKey k
  kept : ∀ j, i < j → (s.before h actions j).table.HoldsKey k

structure AttachedBy (i : Nat) (o : ObjectId) : Prop where
  lt : i < actions.length
  attached : actions[i]? = some (.setMetatable (some o))
  last : ∀ j, i < j → ∀ meta?, actions[j]? ≠ some (.setMetatable meta?)

end Run

variable {actions : List Action} {i : Nat}

theorem run_concat (s : Account) (actions : List Action) (x : Action) :
    s.run h (actions ++ [x]) = (s.run h actions).step h x := by
  rw [run, List.foldl_append]
  rfl

theorem length_concat_le (x : Action) (hi : actions.length < i) :
    (actions ++ [x]).length ≤ i := by
  rw [List.length_append, List.length_singleton]
  exact hi

theorem before_of_le (hi : actions.length ≤ i) : s.before h actions i = s.run h actions := by
  rw [before, List.take_of_length_le hi]

theorem before_concat (hi : i ≤ actions.length) (x : Action) :
    s.before h (actions ++ [x]) i = s.before h actions i := by
  rw [before, before, List.take_append_of_le_length hi]

theorem before_concat_of_lt (hi : actions.length < i) (x : Action) :
    s.before h (actions ++ [x]) i = (s.run h actions).step h x := by
  rw [before_of_le (length_concat_le x hi), run_concat]

theorem madeBy_concat (hi : i < actions.length) (x : Action) :
    s.madeBy h (actions ++ [x]) i = s.madeBy h actions i := by
  rw [madeBy, madeBy, List.getElem?_append_left hi, before_concat hi.le]

theorem madeBy_concat_self (x : Action) :
    s.madeBy h (actions ++ [x]) actions.length = x.made h (s.run h actions) := by
  rw [madeBy, List.getElem?_concat_length, before_concat le_rfl, before_of_le le_rfl]

theorem madeBy_of_le (hi : actions.length ≤ i) : s.madeBy h actions i = [] := by
  rw [madeBy, List.getElem?_eq_none hi]

theorem NamedBy.concat (hn : NamedBy h s actions i v) (hi : i < actions.length) (x : Action) :
    NamedBy h s (actions ++ [x]) i v := by
  rwa [NamedBy, before_concat hi, before_concat hi.le]

theorem namedBy_concat_self
    (hn : Notes (s.run h actions).collector ((s.run h actions).step h x).collector vs)
    (hv : v ∈ vs) (hcollectable : v.isCollectable = true) :
    NamedBy h s (actions ++ [x]) actions.length v := by
  obtain ⟨es, he, -, hall⟩ := hn
  rw [NamedBy, before_concat le_rfl, before_of_le le_rfl, before_concat_of_lt (Nat.lt_succ_self _)]
  exact ⟨es, he, hall v hv hcollectable⟩

theorem StoredBy.concat (hi : StoredBy h s actions i k v)
    (hne : ∀ e ∈ x.made h (s.run h actions), e.1.equal k = false) :
    StoredBy h s (actions ++ [x]) i k v where
  lt := hi.lt.trans (by simp)
  made := by
    rw [madeBy_concat hi.lt]
    exact hi.made
  last j hj e he := by
    rcases Nat.lt_trichotomy j actions.length with hlt | rfl | hgt
    · rw [madeBy_concat hlt] at he
      exact hi.last j hj e he
    · rw [madeBy_concat_self] at he
      exact hne e he
    · rw [madeBy_of_le (length_concat_le _ hgt)] at he
      cases he

theorem storedBy_concat_self {e : Value × Value} (he : e ∈ x.made h (s.run h actions))
    (hek : e.1.equal k = true) : StoredBy h s (actions ++ [x]) actions.length k e.2 where
  lt := by simp
  made := ⟨e, by rwa [madeBy_concat_self], hek, rfl⟩
  last j hj e' he' := by
    rw [madeBy_of_le (length_concat_le _ hj)] at he'
    cases he'

/-- Every value that a table holds was named when it was stored. -/
theorem exists_storedBy (hs : s.Sound h c) (hempty : ¬s.table.contents.Holds k v)
    (hactions : ∀ x ∈ actions, x.Reporting) (hv : v.isCollectable = true)
    (hholds : (s.run h actions).table.contents.Holds k v) :
    ∃ i, StoredBy h s actions i k v ∧ NamedBy h s actions i v := by
  induction actions using List.reverseRecOn with
  | nil => exact absurd hholds hempty
  | append_singleton actions x ih =>
    have hvalid := (hs.run actions).valid
    rw [run_concat] at hholds
    rcases hvalid.holds_step x hholds with ⟨e, he, hek, rfl⟩ | ⟨hne, hholds⟩
    · obtain ⟨ks, hn, -⟩ := hvalid.reports_step (hactions x (by simp))
      have hgiven := List.mem_append_left ks (Action.mem_given he)
      exact ⟨actions.length, storedBy_concat_self he hek, namedBy_concat_self hn hgiven hv⟩
    · obtain ⟨i, hstored, hnamed⟩ := ih (fun y hy => hactions y (by simp [hy])) hholds
      exact ⟨i, hstored.concat hne, hnamed.concat hstored.lt x⟩

theorem EnteredBy.concat (hi : EnteredBy h s actions i k)
    (hheld : ((s.run h actions).step h x).table.HoldsKey k) :
    EnteredBy h s (actions ++ [x]) i k where
  lt := hi.lt.trans (by simp)
  absent := by
    rw [before_concat hi.lt.le]
    exact hi.absent
  kept j hj := by
    rcases Nat.lt_or_ge actions.length j with hlt | hle
    · rwa [before_concat_of_lt hlt]
    · rw [before_concat hle]
      exact hi.kept j hj

theorem enteredBy_concat_self (hbefore : ¬(s.run h actions).table.HoldsKey k)
    (hheld : ((s.run h actions).step h x).table.HoldsKey k) :
    EnteredBy h s (actions ++ [x]) actions.length k where
  lt := by simp
  absent := by rwa [before_concat le_rfl, before_of_le le_rfl]
  kept j hj := by rwa [before_concat_of_lt hj]

/-- Every key of a slot was named when it was given the slot. -/
theorem exists_enteredBy (hs : s.Sound h c) (hempty : ¬s.table.HoldsKey k)
    (hactions : ∀ x ∈ actions, x.Reporting) (hk : k.isCollectable = true)
    (hheld : (s.run h actions).table.HoldsKey k) :
    ∃ i, EnteredBy h s actions i k ∧ NamedBy h s actions i k := by
  induction actions using List.reverseRecOn with
  | nil => exact absurd hheld hempty
  | append_singleton actions x ih =>
    rw [run_concat] at hheld
    by_cases hbefore : (s.run h actions).table.HoldsKey k
    · obtain ⟨i, hentered, hnamed⟩ := ih (fun y hy => hactions y (by simp [hy])) hbefore
      exact ⟨i, hentered.concat hheld, hnamed.concat hentered.lt x⟩
    · obtain ⟨ks, hn, hnew⟩ := (hs.run actions).valid.reports_step (hactions x (by simp))
      have hmem := (hnew k hk hheld).resolve_left hbefore
      exact ⟨actions.length, enteredBy_concat_self hbefore hheld,
        namedBy_concat_self hn (List.mem_append_right _ hmem) hk⟩

theorem AttachedBy.concat {o : ObjectId} (hi : AttachedBy actions i o)
    (hx : ∀ meta?, x ≠ .setMetatable meta?) : AttachedBy (actions ++ [x]) i o where
  lt := hi.lt.trans (by simp)
  attached := by rw [List.getElem?_append_left hi.lt, hi.attached]
  last j hj meta? heq := by
    rcases Nat.lt_trichotomy j actions.length with hlt | rfl | hgt
    · rw [List.getElem?_append_left hlt] at heq
      exact hi.last j hj meta? heq
    · rw [List.getElem?_concat_length, Option.some.injEq] at heq
      exact hx meta? heq
    · rw [List.getElem?_eq_none (length_concat_le _ hgt)] at heq
      cases heq

theorem attachedBy_concat_self (actions : List Action) (o : ObjectId) :
    AttachedBy (actions ++ [.setMetatable (some o)]) actions.length o where
  lt := by simp
  attached := List.getElem?_concat_length
  last j hj meta? heq := by
    rw [List.getElem?_eq_none (length_concat_le _ hj)] at heq
    cases heq

/-- The metatable was named when it was set. -/
theorem exists_attachedBy (hnone : s.table.metatable = none) {o : ObjectId}
    (hmeta : (s.run h actions).table.metatable = some o) :
    ∃ i, AttachedBy actions i o ∧ NamedBy h s actions i (.object o) := by
  induction actions using List.reverseRecOn with
  | nil => exact absurd (hnone.symm.trans hmeta) (by simp)
  | append_singleton actions x ih =>
    rw [run_concat] at hmeta
    have hidle (hkept : ((s.run h actions).step h x).table.metatable =
        (s.run h actions).table.metatable) (hx : ∀ meta?, x ≠ .setMetatable meta?) :
        ∃ i, AttachedBy (actions ++ [x]) i o ∧ NamedBy h s (actions ++ [x]) i (.object o) := by
      obtain ⟨i, hattached, hnamed⟩ := ih (hkept.symm.trans hmeta)
      exact ⟨i, hattached.concat hx, hnamed.concat hattached.lt x⟩
    cases x with
    | operate op => exact hidle (metatable_apply ..) nofun
    | setMetatable meta? =>
      obtain rfl : meta? = some o := hmeta
      exact ⟨actions.length, attachedBy_concat_self actions o,
        namedBy_concat_self ((s.run h actions).collector.notes_barrier rfl)
          (List.mem_singleton_self _) rfl⟩
    | createString bytes => exact hidle rfl nofun

/-- Only collectable values are named. -/
theorem notes_run (hs : s.Sound h c) (hactions : ∀ x ∈ actions, x.Reporting) :
    Notes s.collector (s.run h actions).collector [] := by
  induction actions using List.reverseRecOn with
  | nil => exact .refl _
  | append_singleton actions x ih =>
    obtain ⟨ks, hn, -⟩ := (hs.run actions).valid.reports_step (hactions x (by simp))
    rw [run_concat]
    exact ((ih fun y hy => hactions y (by simp [hy])).trans hn).mono (List.nil_subset _)

theorem before_succ (hx : actions[i]? = some x) :
    s.before h actions (i + 1) = (s.before h actions i).step h x := by
  rw [before, List.take_add_one, hx, Option.toList_some, run_concat, before]

theorem not_holds_start (h : SeededHash) (c : Collector) (a n : Nat) :
    ¬(start h c a n).table.contents.Holds k v := fun hholds =>
  holds_nil k v (((History.sound_start h c a n).matches_ofLog.holds k v).1 hholds)

theorem start_cases (h : SeededHash) (c : Collector) (a n : Nat) :
    start h c a n = ⟨empty, c, 0⟩ ∨
      start h c a n = ⟨(empty.resize h c a n).table, (empty.resize h c a n).collector, 0⟩ := by
  unfold start withCapacity
  split_ifs
  · exact .inl rfl
  · exact .inr rfl

theorem not_holdsKey_start (h : SeededHash) (c : Collector) (a n : Nat)
    (hk : k.isCollectable = true) : ¬(start h c a n).table.HoldsKey k := by
  have hempty : ¬empty.HoldsKey k := fun ⟨i, hi, _⟩ => not_used_bare empty 0 0 i hi
  rcases start_cases h c a n with hs | hs <;> rw [hs]
  · exact hempty
  · exact fun hheld => hempty (valid_empty.holdsKey_resize hk hheld)

theorem notes_start (h : SeededHash) (c : Collector) (a n : Nat) :
    Notes c (start h c a n).collector [] := by
  rcases start_cases h c a n with hs | hs <;> rw [hs]
  · exact .refl c
  · exact (requested_resize empty c a n).notes

theorem metatable_start (h : SeededHash) (c : Collector) (a n : Nat) :
    (start h c a n).table.metatable = none := by
  rcases start_cases h c a n with hs | hs <;> rw [hs]
  · rfl
  · exact metatable_resize empty c a n

/-- Whatever a table goes through, at the end of it every collectable value that it holds, every
collectable key of its slots and its metatable have been named by the action that has brought them
in. Nothing else is ever named but collectable values, and operations that fail name nothing. -/
theorem named_of_held (h : SeededHash) (c : Collector) (a n : Nat)
    (hactions : ∀ x ∈ actions, x.Reporting) :
    let s := start h c a n
    let s' := s.run h actions
    (∀ cell k, s'.table.Keyed cell k → (s'.table.read cell).isCollectable = true →
      ∃ i, StoredBy h s actions i k (s'.table.read cell) ∧
        NamedBy h s actions i (s'.table.read cell)) ∧
    (∀ k, k.isCollectable = true → s'.table.HoldsKey k →
      ∃ i, EnteredBy h s actions i k ∧ NamedBy h s actions i k) ∧
    (∀ o, s'.table.metatable = some o →
      ∃ i, AttachedBy actions i o ∧ NamedBy h s actions i (.object o)) ∧
    (∃ es, s'.collector.events.toList = c.events.toList ++ es ∧
      ∀ owner v, .barrier owner v ∈ es → owner = .table ∧ v.isCollectable = true) ∧
    ∀ i op e, actions[i]? = some (.operate op) →
      (op.apply h (s.before h actions i).table (s.before h actions i).collector).result =
        .error e → Silent h s actions i := by
  intro s s'
  have hs : s.Sound h c := sound_start h c a n
  have hvalid : Valid h s'.table := (hs.run actions).valid
  refine ⟨fun cell k hcell hv => ?_, fun k hk hheld => ?_, fun o hmeta => ?_, ?_,
    fun i op e hop he => ?_⟩
  · -- what is collectable is not nil, so it is an entry
    have hnil : (s'.table.read cell).isNil = false := by
      cases hread : s'.table.read cell with
      | nil => simp [hread, Value.isCollectable] at hv
      | _ => rfl
    exact exists_storedBy hs (not_holds_start h c a n) hactions hv
      (hvalid.holds_contents.2 ⟨cell, hcell, rfl, hnil⟩)
  · exact exists_enteredBy hs (not_holdsKey_start h c a n hk) hactions hk hheld
  · exact exists_attachedBy (metatable_start h c a n) hmeta
  · obtain ⟨es, hes, hsound, -⟩ := (notes_start h c a n).trans (notes_run hs hactions)
    exact ⟨es, hes, hsound⟩
  · have hquiet := ((hs.run (actions.take i)).valid.atomic_apply _ op e he).2
    rw [Silent, before_succ hop]
    exact hquiet.events

/-- An object becomes a key, a value beyond the array part and the metatable. One store between them
fails, and the parts change in the end. -/
def attachments : List Action :=
  let o : ObjectId := ⟨.table, 7⟩
  [.operate (.set (.object o) (.boolean true)), .operate (.set .nil (.object o)),
    .operate (.setList 3 [.object o]), .setMetatable (some o), .operate (.resize 3 0)]

/-- The value has gone to the array part meanwhile. -/
theorem named_of_held_attachments :
    let v : Value := .object ⟨.table, 7⟩
    let s := start .ofContent (.new 0 10000) 0 0
    let s' := s.run .ofContent attachments
    (s'.table.Keyed (.array 2) (.integer 3) ∧ s'.table.read (.array 2) = v ∧
      ∃ i, StoredBy .ofContent s attachments i (.integer 3) v ∧
        NamedBy .ofContent s attachments i v) ∧
    (s'.table.HoldsKey v ∧
      ∃ i, EnteredBy .ofContent s attachments i v ∧ NamedBy .ofContent s attachments i v) ∧
    (∃ i, AttachedBy attachments i ⟨.table, 7⟩ ∧ NamedBy .ofContent s attachments i v) ∧
    Silent .ofContent s attachments 1 := by
  intro v s s'
  have hreporting : ∀ x ∈ attachments, x.Reporting := by
    intro x hx k w
    simp only [attachments, List.mem_cons, List.not_mem_nil, or_false] at hx
    rcases hx with rfl | rfl | rfl | rfl | rfl <;> exact nofun
  obtain ⟨hvalues, hkeys, hmetatables, -, hfailed⟩ :=
    named_of_held .ofContent (.new 0 10000) 0 0 hreporting
  have hkeyed : s'.table.Keyed (.array 2) (.integer 3) := ⟨by decide +kernel, rfl⟩
  have hread : s'.table.read (.array 2) = v := by decide +kernel
  have hheld : s'.table.HoldsKey v := ⟨0, by rw [Used]; decide +kernel, by decide +kernel⟩
  have hmeta : ((start .ofContent (.new 0 10000) 0 0).run .ofContent attachments).table.metatable =
      some ⟨.table, 7⟩ := by decide +kernel
  have hvalue := hvalues _ _ hkeyed (by rw [hread]; rfl)
  rw [hread] at hvalue
  have herror : ∀ t c, ((Operation.set .nil v).apply .ofContent t c).result = .error .nilIndex :=
    fun _ _ => rfl
  exact ⟨⟨hkeyed, hread, hvalue⟩, ⟨hheld, hkeys v rfl hheld⟩, hmetatables _ hmeta,
    hfailed 1 (.set .nil v) .nilIndex rfl (herror ..)⟩

end Account

end LuaData.Table
