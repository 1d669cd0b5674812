import LuaData.Collector

namespace LuaData.Collector

structure Called (c c' : Collector) (e : Event) (bytes : Int) : Prop where
  events : c'.events = c.events.push e
  total : c'.total = c.total + bytes
  interner : c'.interner = c.interner
  barriers : (∀ owner v, .barrier owner v ≠ e) → c'.stats.barriers = c.stats.barriers

/-- `c'` is `c` but for what is noted and for the refusals counted. -/
structure Unmoved (c c' : Collector) : Prop where
  events : c'.events = c.events
  total : c'.total = c.total
  interner : c'.interner = c.interner
  barriers : c'.stats.barriers = c.stats.barriers

theorem Unmoved.refl (c : Collector) : Unmoved c c := ⟨rfl, rfl, rfl, rfl⟩

theorem unmoved_log (c : Collector) (level : Level) (text : String) :
    Unmoved c (c.log level text) := ⟨rfl, rfl, rfl, rfl⟩

theorem unmoved_refuse (c : Collector) (bytes : Int) : Unmoved c (c.refuse bytes) :=
  ⟨rfl, rfl, rfl, rfl⟩

theorem called_barrier (c : Collector) (owner : Owner) (v : Value) :
    Called c (c.barrier owner v) (.barrier owner v) 0 :=
  ⟨rfl, (Int.add_zero _).symm, rfl, fun h => absurd rfl (h owner v)⟩

theorem called_free (c : Collector) (b : Block) (count : Nat) :
    Called c (c.free b count) (.free b count) (-b.bytes count) :=
  ⟨rfl, Int.sub_eq_add_neg, rfl, fun _ => rfl⟩

theorem charge_cases (c : Collector) (bytes : Int) :
    c.charge bytes = (true, c.grow bytes) ∨
      c.charge bytes = (false, c.refuse bytes) := by
  unfold charge
  split
  · exact .inl rfl
  · exact .inr rfl

/-- A new block is granted or refused. -/
theorem alloc_cases (c : Collector) (b : Block) (count : Nat) :
    (∃ c', c.alloc b count = (true, c') ∧ Called c c' (.alloc b count) (b.bytes count)) ∨
      ∃ c', c.alloc b count = (false, c') ∧ Unmoved c c' := by
  unfold alloc
  rcases c.charge_cases (b.bytes count) with h | h <;> rw [h]
  · exact .inl ⟨_, rfl, rfl, rfl, rfl, fun _ => rfl⟩
  · exact .inr ⟨_, rfl, c.unmoved_refuse _⟩

theorem realloc_cases (c : Collector) (b : Block) (old new : Nat) :
    (∃ c', c.realloc b old new = (true, c') ∧
      Called c c' (.realloc b old new) (b.bytes new - b.bytes old)) ∨
      ∃ c', c.realloc b old new = (false, c') ∧ Unmoved c c' := by
  unfold realloc
  rcases c.charge_cases (b.bytes new - b.bytes old) with h | h <;> rw [h]
  · exact .inl ⟨_, rfl, rfl, rfl, rfl, fun _ => rfl⟩
  · exact .inr ⟨_, rfl, c.unmoved_refuse _⟩

/-- A string is there already, or made, or refused. -/
theorem createString_cases (c : Collector) (bytes : List UInt8) :
    (∃ t c', c.createString bytes = (some t, c') ∧ c.interner.find? bytes = some t ∧
      Called c c' (.string bytes.length) 0) ∨
    (∃ t c', c.createString bytes = (some t, c') ∧
      c'.events = c.events.push (.string bytes.length) ∧
      c'.total = c.total + Block.stringBytes.bytes bytes.length ∧
      ((t, c'.interner) = if bytes.length ≤ Str.shortLimit then c.interner.add bytes
        else c.interner.fresh bytes) ∧ c.interner.find? bytes = none) ∨
    ∃ c', c.createString bytes = (none, c') ∧ Unmoved c c' ∧ c.interner.find? bytes = none := by
  unfold createString
  cases c.interner.find? bytes with
  | some t => exact .inl ⟨t, _, rfl, rfl, rfl, (Int.add_zero _).symm, rfl, fun _ => rfl⟩
  | none =>
    dsimp only
    rcases c.charge_cases (Block.stringBytes.bytes bytes.length) with h | h <;> rw [h]
    · exact .inr (.inl ⟨_, _, rfl, rfl, rfl, rfl, rfl⟩)
    · exact .inr (.inr ⟨_, rfl, c.unmoved_refuse _, rfl⟩)

inductive Act where
  | alloc (b : Block) (count : Nat)
  | realloc (b : Block) (old new : Nat)
  | free (b : Block) (count : Nat)
  | barrier (owner : Owner) (v : Value)
  | log (level : Level) (text : String)

namespace Act

def perform (c : Collector) : Act → Collector
  | alloc b count => (c.alloc b count).2
  | realloc b old new => (c.realloc b old new).2
  | free b count => c.free b count
  | barrier owner v => c.barrier owner v
  | log level text => c.log level text

def asked? : Act → Option Block
  | alloc b _ => some b
  | realloc b _ _ => some b
  | _ => none

/-- The calls that the changes of a table consist of: its barriers are for collectable values, and
the lines that it writes into the journal by itself are no part of them. -/
def Routine : Act → Prop
  | barrier owner v => owner = .table ∧ v.isCollectable = true
  | log _ _ => False
  | _ => True

end Act

def performAll (c : Collector) (acts : List Act) : Collector := acts.foldl Act.perform c

theorem performAll_append (c : Collector) (as bs : List Act) :
    c.performAll (as ++ bs) = (c.performAll as).performAll bs := List.foldl_append

/-- `c'` is `c` after routine calls that ask for no other blocks than `bs`, each once and in this
order. -/
def Requested (c c' : Collector) (bs : List Block) : Prop :=
  ∃ acts, c' = c.performAll acts ∧ (acts.filterMap Act.asked?).Sublist bs ∧
    ∀ act ∈ acts, act.Routine

section Requested

variable {c c' c'' : Collector} {bs bs' : List Block}

theorem Requested.refl (c : Collector) : Requested c c [] :=
  ⟨[], rfl, List.Sublist.refl _, fun _ hmem => absurd hmem List.not_mem_nil⟩

theorem Requested.trans (h : Requested c c' bs) (h' : Requested c' c'' bs') :
    Requested c c'' (bs ++ bs') := by
  obtain ⟨as, rfl, hs, hroutine⟩ := h
  obtain ⟨as', rfl, hs', hroutine'⟩ := h'
  refine ⟨as ++ as', (performAll_append ..).symm, ?_, fun act hmem => ?_⟩
  · rw [List.filterMap_append]
    exact hs.append hs'
  · exact (List.mem_append.1 hmem).elim (hroutine act) (hroutine' act)

theorem Requested.mono (h : Requested c c' bs) (hs : bs.Sublist bs') : Requested c c' bs' := by
  obtain ⟨acts, hc, ha, hroutine⟩ := h
  exact ⟨acts, hc, ha.trans hs, hroutine⟩

theorem requested_perform (c : Collector) (act : Act) (hact : act.Routine) :
    Requested c (act.perform c) act.asked?.toList := by
  refine ⟨[act], rfl, ?_, fun act' hmem => List.mem_singleton.1 hmem ▸ hact⟩
  cases act <;> exact List.Sublist.refl _

theorem requested_alloc (c : Collector) (b : Block) (count : Nat) :
    Requested c (c.alloc b count).2 [b] := c.requested_perform (.alloc b count) trivial

theorem requested_realloc (c : Collector) (b : Block) (old new : Nat) :
    Requested c (c.realloc b old new).2 [b] := c.requested_perform (.realloc b old new) trivial

theorem requested_free (c : Collector) (b : Block) (count : Nat) :
    Requested c (c.free b count) [] := c.requested_perform (.free b count) trivial

theorem requested_noteStored (c : Collector) (v : Value) :
    Requested c (c.noteStored .table v) [] := by
  unfold noteStored
  split
  · rename_i hv
    exact c.requested_perform (.barrier .table v) ⟨rfl, hv⟩
  · exact .refl c

end Requested

def remarks (c : Collector) : List Message := c.journal.toList.filter fun m => m.level != .trace

theorem remarks_log (c : Collector) (level : Level) (text : String) : (c.log level text).remarks =
    c.remarks ++ if level = .trace then [] else [⟨level, text⟩] := by
  rw [remarks, log, Array.toList_push, List.filter_append]
  cases level <;> rfl

theorem remarks_refuse (c : Collector) (bytes : Int) : (c.refuse bytes).remarks = c.remarks := by
  rw [refuse, remarks_log, if_pos rfl, List.append_nil]
  rfl

/-- A call notes nothing but itself. -/
theorem remarks_perform (c : Collector) (act : Act) (hact : act.Routine) :
    (act.perform c).remarks = c.remarks := by
  cases act with
  | alloc b count =>
    rw [Act.perform, alloc]
    rcases c.charge_cases (b.bytes count) with h | h <;> rw [h]
    · exact (remarks_log ..).trans (List.append_nil _)
    · exact c.remarks_refuse _
  | realloc b old new =>
    rw [Act.perform, realloc]
    rcases c.charge_cases (b.bytes new - b.bytes old) with h | h <;> rw [h]
    · exact (remarks_log ..).trans (List.append_nil _)
    · exact c.remarks_refuse _
  | free b count => exact (remarks_log ..).trans (List.append_nil _)
  | barrier owner v => rfl
  | log level text => exact hact.elim

theorem Requested.remarks {c c' : Collector} {bs : List Block} (h : Requested c c' bs) :
    c'.remarks = c.remarks := by
  obtain ⟨acts, rfl, -, hroutine⟩ := h
  induction acts generalizing c with
  | nil => rfl
  | cons act acts ih =>
    have hrest := @ih (act.perform c) fun act' hmem => hroutine act' (List.mem_cons_of_mem _ hmem)
    exact hrest.trans (c.remarks_perform act (hroutine act List.mem_cons_self))

theorem refused_alloc (c : Collector) (b : Block) (count : Nat) :
    (c.alloc b count).2.stats.refused =
      c.stats.refused + if (c.alloc b count).1 then 0 else 1 := by
  unfold alloc
  rcases c.charge_cases (b.bytes count) with h | h <;> rw [h] <;> rfl

theorem refused_realloc (c : Collector) (b : Block) (old new : Nat) :
    (c.realloc b old new).2.stats.refused =
      c.stats.refused + if (c.realloc b old new).1 then 0 else 1 := by
  unfold realloc
  rcases c.charge_cases (b.bytes new - b.bytes old) with h | h <;> rw [h] <;> rfl

theorem refused_noteStored (c : Collector) (owner : Owner) (v : Value) :
    (c.noteStored owner v).stats.refused = c.stats.refused := by
  unfold noteStored
  split <;> rfl

/-- `c'` is `c` after calls that came to `bytes` more and raised no barrier. -/
structure Quiet (c c' : Collector) (bytes : Int) : Prop where
  total : c'.total = c.total + bytes
  barriers : c'.stats.barriers = c.stats.barriers
  events : ∃ es : List Event, c'.events.toList = c.events.toList ++ es ∧
    ∀ owner v, Event.barrier owner v ∉ es

variable {c c' c'' : Collector} {m n bytes : Int} {b : Block}

theorem Unmoved.quiet (h : Unmoved c c') : Quiet c c' 0 :=
  ⟨h.total.trans (Int.add_zero _).symm, h.barriers, [], by rw [h.events, List.append_nil],
    fun _ _ => List.not_mem_nil⟩

theorem Called.quiet {e : Event} (h : Called c c' e bytes) (he : ∀ owner v, .barrier owner v ≠ e) :
    Quiet c c' bytes where
  total := h.total
  barriers := h.barriers he
  events := by
    refine ⟨[e], by rw [h.events, Array.toList_push], fun owner v hmem => ?_⟩
    exact he owner v (List.mem_singleton.1 hmem)

theorem Quiet.refl (c : Collector) : Quiet c c 0 := (Unmoved.refl c).quiet

theorem Quiet.trans (hc : Quiet c c' m) (hc' : Quiet c' c'' n) : Quiet c c'' (m + n) := by
  obtain ⟨es, he, hno⟩ := hc.events
  obtain ⟨es', he', hno'⟩ := hc'.events
  refine ⟨?_, hc'.barriers.trans hc.barriers, es ++ es', ?_, ?_⟩
  · rw [hc'.total, hc.total, Int.add_assoc]
  · rw [he', he, List.append_assoc]
  · intro owner v hmem
    exact (List.mem_append.1 hmem).elim (hno owner v) (hno' owner v)

/-- A new block is accounted for if it is granted. -/
theorem quiet_alloc (c : Collector) (b : Block) (count : Nat) :
    Quiet c (c.alloc b count).2 (if (c.alloc b count).1 then b.bytes count else 0) := by
  rcases c.alloc_cases b count with ⟨c', hc, h⟩ | ⟨c', hc, h⟩ <;> rw [hc]
  · exact h.quiet nofun
  · exact h.quiet

theorem quiet_realloc (c : Collector) (b : Block) (old new : Nat) :
    Quiet c (c.realloc b old new).2
      (if (c.realloc b old new).1 then b.bytes new - b.bytes old else 0) := by
  rcases c.realloc_cases b old new with ⟨c', hc, h⟩ | ⟨c', hc, h⟩ <;> rw [hc]
  · exact h.quiet nofun
  · exact h.quiet

/-- Between `c` and `c'` a table has raised barriers for collectable values only, and for all of
those among `vs`. -/
def Notes (c c' : Collector) (vs : List Value) : Prop :=
  ∃ es, c'.events.toList = c.events.toList ++ es ∧
    (∀ owner v, .barrier owner v ∈ es → owner = .table ∧ v.isCollectable = true) ∧
    ∀ v ∈ vs, v.isCollectable = true → .barrier .table v ∈ es

section Notes

variable {vs ws : List Value}

theorem Notes.mono (h : Notes c c' vs) (hsub : ws ⊆ vs) : Notes c c' ws := by
  obtain ⟨es, he, hsound, hall⟩ := h
  exact ⟨es, he, hsound, fun v hv => hall v (hsub hv)⟩

theorem Notes.trans (h : Notes c c' vs) (h' : Notes c' c'' ws) : Notes c c'' (vs ++ ws) := by
  obtain ⟨es, he, hsound, hall⟩ := h
  obtain ⟨es', he', hsound', hall'⟩ := h'
  refine ⟨es ++ es', by rw [he', he, List.append_assoc], fun owner v hmem => ?_,
    fun v hv hcollectable => ?_⟩
  · exact (List.mem_append.1 hmem).elim (hsound owner v) (hsound' owner v)
  · exact List.mem_append.2
      ((List.mem_append.1 hv).imp (hall v · hcollectable) (hall' v · hcollectable))

/-- Calls without barriers tell of no value. -/
theorem notes_of_events {es : List Event} (he : c'.events.toList = c.events.toList ++ es)
    (hno : ∀ owner v, .barrier owner v ∉ es) : Notes c c' [] :=
  ⟨es, he, fun owner v hmem => absurd hmem (hno owner v), fun _ hv => absurd hv List.not_mem_nil⟩

theorem Quiet.notes (h : Quiet c c' bytes) : Notes c c' [] := by
  obtain ⟨es, he, hno⟩ := h.events
  exact notes_of_events he hno

theorem Notes.refl (c : Collector) : Notes c c [] := (Quiet.refl c).notes

theorem notes_barrier (c : Collector) {v : Value} (hv : v.isCollectable = true) :
    Notes c (c.barrier .table v) [v] := by
  refine ⟨[.barrier .table v], Array.toList_push, fun owner w hmem => ?_, fun w hw _ => ?_⟩
  · cases List.mem_singleton.1 hmem
    exact ⟨rfl, hv⟩
  · rw [List.mem_singleton.1 hw]
    exact List.mem_singleton_self _

theorem notes_noteStored (c : Collector) (v : Value) : Notes c (c.noteStored .table v) [v] := by
  unfold noteStored
  split
  · rename_i hv
    exact c.notes_barrier hv
  · rename_i hv
    obtain ⟨es, he, hsound, -⟩ := Notes.refl c
    exact ⟨es, he, hsound, fun w hw hcollectable =>
      absurd (List.mem_singleton.1 hw ▸ hcollectable) hv⟩

theorem notes_createString (c : Collector) (bytes : List UInt8) :
    Notes c (c.createString bytes).2 [] := by
  rcases c.createString_cases bytes with
    ⟨t, c', hc, -, h⟩ | ⟨t, c', hc, he, -⟩ | ⟨c', hc, h, -⟩ <;> rw [hc]
  · exact (h.quiet nofun).notes
  · rw [← Array.toList_inj, Array.toList_push] at he
    exact notes_of_events he fun owner v hmem => by cases List.mem_singleton.1 hmem
  · exact h.quiet.notes

theorem notes_perform (c : Collector) (act : Act) (hact : act.Routine) :
    Notes c (act.perform c) [] := by
  cases act with
  | alloc b count => exact (c.quiet_alloc b count).notes
  | realloc b old new => exact (c.quiet_realloc b old new).notes
  | free b count => exact ((c.called_free b count).quiet nofun).notes
  | barrier owner v =>
    obtain ⟨rfl, hv⟩ := hact
    exact (c.notes_barrier hv).mono (List.nil_subset _)
  | log level text => exact hact.elim

theorem Requested.notes {bs : List Block} (h : Requested c c' bs) : Notes c c' [] := by
  obtain ⟨acts, rfl, -, hroutine⟩ := h
  induction acts generalizing c with
  | nil => exact .refl c
  | cons act acts ih =>
    have hrest := @ih (act.perform c) fun act' hmem => hroutine act' (List.mem_cons_of_mem _ hmem)
    exact (c.notes_perform act (hroutine act List.mem_cons_self)).trans hrest

end Notes

/-- The collector grants what is within its limit, and `n` bytes more are. -/
structure HasRoom (c : Collector) (n : Nat) : Prop where
  willing : ∀ stats, c.declines stats = false
  enough : c.total + n ≤ c.limit

section Room

variable {j k : Nat}

theorem HasRoom.mono (hc : c.HasRoom k) (hle : j ≤ k) : c.HasRoom j := by
  have henough := hc.enough
  exact ⟨hc.willing, by omega⟩

theorem HasRoom.charge (hc : c.HasRoom (j + k)) :
    ∃ c', c.charge j = (true, c') ∧ c'.HasRoom k := by
  have henough := hc.enough
  have hadmits : c.admits j = true := by
    rw [admits, hc.willing, Bool.not_false, Bool.true_and, decide_eq_true_iff]
    omega
  rw [Collector.charge, if_pos hadmits]
  refine ⟨_, rfl, hc.willing, ?_⟩
  change c.total + j + k ≤ c.limit
  omega

theorem HasRoom.alloc {count : Nat} (hc : c.HasRoom (b.bytes count + k)) :
    ∃ c', c.alloc b count = (true, c') ∧ c'.HasRoom k := by
  obtain ⟨c', hcharge, hroom⟩ := hc.charge
  rw [Collector.alloc, hcharge]
  exact ⟨_, rfl, hroom.willing, hroom.enough⟩

/-- What a string costs is its bytes at most. -/
theorem HasRoom.createString {bytes : List UInt8}
    (hc : c.HasRoom (Block.stringBytes.bytes bytes.length + k)) :
    ∃ t c', c.createString bytes = (some t, c') ∧ c'.HasRoom k := by
  unfold Collector.createString
  split
  · -- a string that is there already costs nothing
    have hroom := hc.mono (Nat.le_add_left k _)
    exact ⟨_, _, rfl, hroom.willing, hroom.enough⟩
  · obtain ⟨c', hcharge, hroom⟩ := hc.charge
    rw [hcharge]
    exact ⟨_, _, rfl, hroom.willing, hroom.enough⟩

end Room

end LuaData.Collector
