import LuaData.Proofs.Collector
import LuaData.Proofs.Table.Exhausted

namespace LuaData.Table

open Collector Ledger

variable {h : SeededHash} {s : History} {t t' : Table} {k v : Value} {c c' : Collector}

/-- The tables that a program can have, with the stores made in them. -/
inductive Reachable (h : StringHash) : History → Prop
  | start {c : Collector} {a n : Nat} :
      (withCapacity h c a n).result = .ok () → Reachable h (.start h c a n)
  | step {s : History} (op : Operation) (c : Collector) :
      Reachable h s → Reachable h (s.step h (op, c))
  | setMetatable {s : History} (c : Collector) (meta? : Option ObjectId) :
      Reachable h s → Reachable h ⟨(s.table.setMetatable c meta?).1, s.log⟩

theorem Threaded.setMetatable {h : StringHash} (ht : Threaded h t) (c : Collector)
    (meta? : Option ObjectId) : Threaded h (t.setMetatable c meta?).1 :=
  ht.congr rfl rfl rfl (fun _ => rfl) (fun _ => rfl) (fun _ _ => rfl) rfl ht.threads ht.member

theorem Valid.setMetatable (hv : Valid h t) (c : Collector) (meta? : Option ObjectId) :
    Valid h (t.setMetatable c meta?).1 where
  toThreaded := hv.toThreaded.setMetatable c meta?
  distinct := hv.distinct.congr fun _ => rfl

theorem Reachable.sound (hs : Reachable h s) : s.Sound h := by
  induction hs with
  | start _ => exact History.sound_start h _ _ _
  | step op c _ ih => exact ih.step (op, c)
  | @setMetatable s c meta? _ ih =>
    have hcontents : (s.table.setMetatable c meta?).1.contents = s.table.contents :=
      contents_congr rfl rfl rfl
    exact ⟨ih.valid.setMetatable c meta?, ih.isKey, hcontents ▸ ih.matches_ofLog⟩

theorem reachable_run {h : StringHash} (hs : Reachable h s) (ops : List (Operation × Collector)) :
    Reachable h (s.run h ops) := by
  induction ops generalizing s with
  | nil => exact hs
  | cons op ops ih => exact ih (.step op.1 op.2 hs)

/-- If the operation fails, it leaves a table like `t`, and `c` without a byte or a barrier more. -/
def Atomic {α : Type} (t : Table) (c : Collector) (o : Outcome α) : Prop :=
  ∀ e, o.result = .error e → Twin t o.table ∧ Quiet c o.collector 0

theorem atomic_ok {α : Type} (x : α) : Atomic t c ⟨.ok x, t', c'⟩ := by
  intro e he
  cases he

theorem atomic_error {α : Type} (t : Table) (c : Collector) (e : TableError) :
    Atomic t c (⟨.error e, t, c⟩ : Outcome α) := fun _ _ => ⟨.refl t, .refl c⟩

/-- An empty hash part needs no memory. -/
theorem quiet_alloc_hashPart (c : Collector) (n : Nat) :
    Quiet c (if n = 0 then (true, c) else c.alloc .hashPart n).2
      (if (if n = 0 then (true, c) else c.alloc .hashPart n).1 then Block.hashPart.bytes n
        else 0) := by
  by_cases hn : n = 0
  · rw [if_pos hn, hn]
    exact .refl c
  · rw [if_neg hn]
    exact quiet_alloc ..

theorem quiet_free_hashPart (c : Collector) (n : Nat) :
    Quiet c (if n = 0 then c else c.free .hashPart n) (-Block.hashPart.bytes n) := by
  by_cases hn : n = 0
  · rw [if_pos hn, hn]
    exact .refl c
  · rw [if_neg hn]
    exact (c.called_free .hashPart n).quiet nofun

/-- What was granted before a refusal has been given back. -/
theorem quiet_requestParts (t : Table) (c : Collector) (a n : Nat)
    (hno : (t.requestParts c a n).1 = false) : Quiet c (t.requestParts c a n).2 0 := by
  have hc₁ := quiet_alloc_hashPart c n
  unfold requestParts at hno ⊢
  generalize (if n = 0 then (true, c) else c.alloc .hashPart n) = r at hno hc₁ ⊢
  obtain ⟨granted, c₁⟩ := r
  cases granted with
  | false => exact hc₁
  | true =>
    have hc₂ := quiet_realloc c₁ .arrayPart t.array.size a
    simp only [Bool.not_true, Bool.false_eq_true, if_false] at hno ⊢
    by_cases ha : a = t.array.size
    · rw [if_pos ha] at hno
      cases hno
    rw [if_neg ha] at hno ⊢
    generalize c₁.realloc .arrayPart t.array.size a = r at hno hc₂ ⊢
    obtain ⟨granted', c₂⟩ := r
    cases granted' with
    | true => cases hno
    | false =>
      have hc₃ := (hc₁.trans hc₂).trans (quiet_free_hashPart c₂ n)
      simpa using hc₃

theorem atomic_resize (t : Table) (c : Collector) (a n : Nat) : Atomic t c (t.resize h c a n) := by
  unfold Table.resize
  dsimp only
  split
  · exact atomic_error t c _
  · have hparts := quiet_requestParts t c (min a maxArraySize)
      (capacity (max n (t.overflowCount (min a maxArraySize))))
    generalize t.requestParts c _ _ = r at hparts ⊢
    obtain ⟨granted, c₁⟩ := r
    cases granted with
    | false => exact fun _ _ => ⟨.refl t, hparts rfl⟩
    | true => exact atomic_ok ()

theorem atomic_rehash (t : Table) (c : Collector) (k : Value) : Atomic t c (t.rehash h c k) := by
  intro e he
  obtain ⟨ht, hc⟩ := atomic_resize t _ _ _ e he
  exact ⟨ht, (c.unmoved_log ..).quiet.trans hc⟩

/-- A table in which a key finds no place has no slot left to look for. -/
theorem Valid.twin_exhausted (hv : Valid h t) (hins : t.insert? h k = none) :
    Twin t (t.mark 0) := by
  have hfull := hv.full_of_insert?_eq_none hins
  exact .inr ⟨fun i hi => hv.used_of_full hfull hi, hv.lastFree_le, 0, Nat.zero_le _, rfl⟩

theorem Valid.atomic_create (hv : Valid h t) (hk : k.IsKey) (hnew : t.cell? h k = none)
    (c : Collector) : Atomic t c (t.create h c k) := by
  have hcreated := hv.created hk hnew c
  generalize t.create h c k = o at hcreated ⊢
  cases hcreated with
  | placed hi => exact atomic_ok _
  | refused hins hr =>
    -- the table of the refusal differs from `t` in its mark alone
    have hfailed := atomic_rehash (h := h) { t with lastFree := 0 } c k _ (congrArg (·.result) hr)
    rw [hr] at hfailed
    exact fun _ _ => ⟨hv.twin_exhausted hins, hfailed.2⟩
  | found hins hr hres hcell => exact atomic_ok _
  | regrown hins hr hres hi => exact atomic_ok _

theorem Valid.atomic_cellFor (hv : Valid h t) (c : Collector) (k : Value) :
    Atomic t c (t.cellFor h c k) := by
  unfold cellFor
  cases hk : keyError? k with
  | some e => exact atomic_error t c e
  | none =>
    dsimp only
    cases hcell : t.cell? h k with
    | some cell => exact atomic_ok cell
    | none => exact hv.atomic_create (Value.keyError?_eq_none_iff.1 hk) hcell c

theorem Valid.atomic_set (hv : Valid h t) (c : Collector) (k v : Value) :
    Atomic t c (t.set h c k v) := by
  unfold set
  split_ifs
  · exact atomic_ok ()
  · have hcell := hv.atomic_cellFor c k
    generalize t.cellFor h c k = o at hcell ⊢
    obtain ⟨r, t₁, c₁⟩ := o
    cases r with
    | error e => exact fun _ _ => hcell e rfl
    | ok cell => exact atomic_ok ()

theorem Valid.atomic_setList (hv : Valid h t) (c : Collector) (first : Int) (vs : List Value) :
    Atomic t c (t.setList h c first vs) := by
  rcases hv.setList_cases c first vs with ⟨e, heq⟩ | ⟨e, c', a, n, heq, hr⟩ | ⟨t', c', heq, -⟩
  · rw [heq]
    exact atomic_error t c e
  · rw [heq, ← hr]
    exact atomic_resize t c a n
  · rw [heq]
    exact atomic_ok ()

theorem Atomic.map {α β : Type} {o : Outcome α} (ho : Atomic t c o) (f : α → β) :
    Atomic t c (o.map f) := by
  obtain ⟨r, t₁, c₁⟩ := o
  cases r with
  | error e => exact fun _ _ => ho e rfl
  | ok x => exact atomic_ok (f x)

theorem Valid.atomic_setCell (hv : Valid h t) (c : Collector) (k v : Value) :
    Atomic t c ((Operation.setCell k v).apply h t c) := by
  have hcell := hv.atomic_cellFor c k
  rw [Operation.apply]
  generalize t.cellFor h c k = o at hcell ⊢
  obtain ⟨r, t₁, c₁⟩ := o
  cases r with
  | error e => exact fun _ _ => hcell e rfl
  | ok cell => exact atomic_ok _

theorem Valid.atomic_apply (hv : Valid h t) (c : Collector) (op : Operation) :
    Atomic t c (op.apply h t c) := by
  cases op with
  | set k v => exact (hv.atomic_set c k v).map _
  | setInt n v => exact (hv.atomic_set c _ v).map _
  | setCell k v => exact hv.atomic_setCell c k v
  | setList first values => exact (hv.atomic_setList c first values).map _
  | resize a n => exact (atomic_resize t c a n).map _
  | resizeArray a => exact (atomic_resize t c a _).map _
  | next k => exact fun _ _ => ⟨.refl t, .refl c⟩
  | get k => exact atomic_ok _
  | getInt n => exact atomic_ok _
  | getStr s => exact atomic_ok _
  | length => exact atomic_ok _
  | count fuzzy => exact atomic_ok _

theorem atomic_withCapacity (c : Collector) (a n : Nat) :
    Atomic empty c (withCapacity h c a n) := by
  unfold withCapacity
  split_ifs
  · exact atomic_ok ()
  · exact atomic_resize empty c a n

/-- An operation has left everything as it was. The search for free slots may start elsewhere, but
then there is none to be found. -/
structure Undone {α : Type} (h : StringHash) (t : Table) (c : Collector) (o : Outcome α) :
    Prop where
  array : o.table.array = t.array
  slots : o.table.slots = t.slots
  order : o.table.order = t.order
  metatable : o.table.metatable = t.metatable
  lastFree : o.table.lastFree = t.lastFree ∨ ∀ i < t.slots.size, t.Used i
  answers : ∀ ops, o.table.answers h ops = t.answers h ops
  total : o.collector.total = c.total
  barriers : o.collector.stats.barriers = c.stats.barriers
  events : ∃ es : List Event, o.collector.events.toList = c.events.toList ++ es ∧
    ∀ owner v, Event.barrier owner v ∉ es

theorem Atomic.undone {α : Type} {o : Outcome α} (ho : Atomic t c o) {e : TableError}
    (he : o.result = .error e) : Undone h t c o := by
  obtain ⟨ht, hc⟩ := ho e he
  obtain ⟨n, heq⟩ := ht.eq_mark
  constructor
  case lastFree => exact ht.imp (congrArg lastFree) And.left
  case answers => exact ht.answers_eq
  case total => exact hc.total.trans (Int.add_zero _)
  case barriers => exact hc.barriers
  case events => exact hc.events
  all_goals
    rw [heq]
    rfl

/-- Whatever the collector grants, an operation that fails has changed nothing. A bulk store that
succeeds has stored the whole run, and a table that is refused its parts has cost nothing. -/
theorem Reachable.undone_of_error (hs : Reachable h s) (c : Collector) :
    (∀ (op : Operation) e, (op.apply h s.table c).result = .error e →
      Undone h s.table c (op.apply h s.table c)) ∧
    (∀ first values, (s.table.setList h c first values).result = .ok () →
      ∀ k, ((s.table.setList h c first values).table.get h k).1 =
        (s.table.contents.storeAll (run first values)).lookup k) ∧
    ∀ a n e, (withCapacity h c a n).result = .error e →
      (withCapacity h c a n).collector.total = c.total := by
  have hv := hs.sound.valid
  refine ⟨fun op e he => (hv.atomic_apply c op).undone he, fun first values hok k => ?_,
    fun a n e he => ?_⟩
  · have hp := hv.performs_setList c first values
    have hlog := hv.proper_contents.storeAll (hp.isKey () hok)
    rw [hp.valid.get_eq_lookup, (hp.done () hok).lookup_eq hp.valid.proper_contents hlog]
  · exact ((atomic_withCapacity c a n).undone (h := h) he).total

def crowded : History :=
  (History.start .ofContent (.new 0 120) 0 1).step .ofContent
    (.set (.boolean true) (.boolean false), .new 0 120)

theorem reachable_crowded : Reachable .ofContent crowded := .step _ _ (.start (by rfl))

/-- The new hash part is granted, and then the array part is refused. -/
theorem undone_of_error_crowded :
    let c := Collector.new 0 60
    let o := (Operation.setInt 1 (.boolean true)).apply .ofContent crowded.table c
    o.collector.events = #[.alloc .hashPart 1, .free .hashPart 1] ∧
      crowded.table.lastFree = 1 ∧ o.table.lastFree = 0 ∧
      Undone .ofContent crowded.table c o := by
  intro c o
  refine ⟨by decide +kernel, by decide +kernel, by decide +kernel, ?_⟩
  have he : o.result = .error .outOfMemory := by rfl
  exact (reachable_crowded.undone_of_error c).1 _ _ he

end LuaData.Table
