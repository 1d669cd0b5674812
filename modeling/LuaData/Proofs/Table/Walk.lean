import LuaData.Proofs.Table.Ahead

namespace LuaData.Table

open Ledger

/-- A call between two steps of a traversal. A store meets the collector as others have left it. -/
inductive Call where
  | get (k : Value)
  | set (k v : Value) (c : Collector)

namespace Call

def key : Call → Value
  | get k => k
  | set k _ _ => k

def run (h : StringHash) (t : Table) : Call → Table
  | get k => (t.get h k).2
  | set k v c => (t.set h c k v).table

end Call

def present (h : StringHash) (t : Table) (k : Value) : Bool := (t.get h k).1.isSome

def Cleared (h : StringHash) (t : Table) (k : Value) : Prop :=
  k.isNil = false ∧ t.present h k = false

/-- A call that a traversal bears which has returned the key `k` last. -/
structure Permitted (h : StringHash) (t : Table) (k : Value) (call : Call) : Prop where
  array_size : (call.run h t).array.size = t.array.size
  /-- Once the key is cleared it is left alone. -/
  away : Cleared h t k → call.key.equal k = false
  /-- From then on no key is given a cell. -/
  settled : Cleared h t k → t.cell? h call.key = none → (call.run h t).cell? h call.key = none

variable {h : SeededHash} {s : History} {t t' : Table} {k q v : Value} {c c' : Collector}
  {cell : Cell} {e : Value × Value} {es : List (Value × Value)}

theorem present_eq (ht : t'.contents = t.contents) (hv : Valid h t) (hv' : Valid h t') (q : Value) :
    t'.present h q = t.present h q := by
  rw [present, present, hv'.get_eq_lookup, hv.get_eq_lookup, ht]

theorem Valid.not_keyed_of_away (hv : Valid h t)
    (haway : Cleared h t k → q.equal k = false) (hq : t.Keyed cell q)
    (hnil : (t.read cell).isNil = true) : ¬t.Keyed cell k := by
  intro hk
  have hcleared : Cleared h t k := by
    refine ⟨(hk.isKey hv).1, ?_⟩
    rw [present, hv.get_of_keyed hk, Value.present?, hnil]
    rfl
  rw [hq.equal hk] at haway
  cases haway hcleared

/-- What happens to the entries ahead when the table `t` becomes `t'`. The keys that are present
before and after are the same. -/
structure Carried (h : StringHash) (t t' : Table) (k : Value) (es es' : List (Value × Value)) :
    Prop where
  ahead : t'.Ahead k es'
  keys : ∀ p : Value → Bool, (∀ q, p q = true → t.present h q = true ∧ t'.present h q = true) →
    keysWhere p es' = keysWhere p es

theorem Carried.of_ahead (ha : t'.Ahead k es) : Carried h t t' k es es := ⟨ha, fun _ _ => rfl⟩

theorem Valid.carried_get (hv : Valid h t) (ha : t.Ahead k es)
    (haway : Cleared h t k → q.equal k = false) : (t.get h q).2.Ahead k es := by
  rw [get]
  cases hcell : t.cell? h q with
  | none => exact ha
  | some cell =>
    have hq := hv.cell?_eq_some_iff.1 hcell
    exact hv.ahead_touch ha hq.hasCell (hv.not_keyed_of_away haway hq)

/-- A new key comes without a value, so it is not among the entries yet. -/
theorem Valid.contents_create (hv : Valid h t) (hk : q.IsKey) (hnew : t.cell? h q = none)
    (hok : (t.create h c q).result = .ok cell)
    (hsize : (t.create h c q).table.array.size = t.array.size) :
    (t.create h c q).table.contents = t.contents := by
  have hcreated := hv.created hk hnew c
  generalize t.create h c q = o at hcreated hok hsize ⊢
  have hrehash : ∀ {t₁ c₁}, ({ t with lastFree := 0 } : Table).rehash h c q = ⟨.ok (), t₁, c₁⟩ →
      t.insert? h q = none → t₁.array.size = t.array.size → t₁.contents = t.contents := by
    intro t₁ c₁ hr hins hsize
    have hv₀ := hv.exhausted (hv.full_of_insert?_eq_none hins)
    have hcontents := hv₀.contents_rehash (c := c) (k := q)
    rw [hr] at hcontents
    exact (hcontents rfl hsize).trans (contents_congr rfl rfl rfl)
  cases hcreated with
  | placed hi => exact hi.contents
  | refused hins hr => cases hok
  | found hins hr hres hcell =>
    obtain ⟨-, hcontents⟩ := hres.valid.touch hcell.hasCell
    rw [array_touch] at hsize
    exact hcontents.trans (hrehash hr hins hsize)
  | regrown hins hr hres hi =>
    rw [hi.array] at hsize
    exact hi.contents.trans (hrehash hr hins hsize)

theorem Valid.ahead_cellFor (hv : Valid h t) (ha : t.Ahead k es)
    (hok : (t.cellFor h c q).result = .ok cell)
    (hsize : (t.cellFor h c q).table.array.size = t.array.size)
    (haway : Cleared h t k → q.equal k = false) (hsettled : Cleared h t k → t.cell? h q ≠ none) :
    (t.cellFor h c q).table.Ahead k es ∧ (t.cellFor h c q).table.contents = t.contents := by
  have hv' := (hv.provides_cellFor c q).valid
  unfold cellFor at hok hsize hv' ⊢
  cases hkey : keyError? q with
  | some e =>
    rw [hkey] at hok
    cases hok
  | none =>
    rw [hkey] at hok hsize hv'
    dsimp only at hok hsize hv' ⊢
    cases hcell : t.cell? h q with
    | some cell =>
      have hq := hv.cell?_eq_some_iff.1 hcell
      exact ⟨hv.ahead_touch ha hq.hasCell (hv.not_keyed_of_away haway hq), (hv.touch hq.hasCell).2⟩
    | none =>
      rw [hcell] at hok hsize hv'
      have hcontents :=
        hv.contents_create (Value.keyError?_eq_none_iff.1 hkey) hcell hok hsize
      refine ⟨ha.of_contents hv hv' hcontents fun hnil => ?_, hcontents⟩
      by_contra hno
      exact hsettled ⟨hnil, Bool.not_eq_true _ ▸ hno⟩ hcell

theorem Valid.carried_set (hv : Valid h t) (ha : t.Ahead k es)
    (hp : Permitted h t k (.set q v c)) : ∃ es', Carried h t (t.set h c q v).table k es es' := by
  obtain ⟨hsize, haway, hsettled⟩ := hp
  rw [Call.run] at hsize hsettled
  unfold set at hsize hsettled ⊢
  split_ifs at hsize hsettled ⊢
  · exact ⟨es, .of_ahead ha⟩
  have hprovides := hv.provides_cellFor c q
  have hfailed := hv.atomic_cellFor c q
  have hahead := @Valid.ahead_cellFor h t k q c
  generalize t.cellFor h c q = o at hprovides hfailed hahead hsize hsettled ⊢
  obtain ⟨r, t₁, c₁⟩ := o
  cases r with
  | error e => exact ⟨es, .of_ahead (ha.twin (hfailed e rfl).1)⟩
  | ok cell =>
    obtain ⟨hkeyed, -⟩ := hprovides.keyed cell rfl
    dsimp only [store] at hsize hsettled hkeyed ⊢
    rw [array_size_write] at hsize
    have hcell : (t₁.write cell v).cell? h q = some cell :=
      (hprovides.valid.write hkeyed.hasCell v).cell?_eq_some_iff.2 ((keyed_write ..).2 hkeyed)
    -- the key has a cell now, so if it had none the other key was not cleared
    obtain ⟨ha₁, hcontents⟩ := hahead hv ha rfl hsize haway fun hcleared hnew => by
      have hnone := hsettled hcleared hnew
      rw [Call.key, hcell] at hnone
      cases hnone
    obtain ⟨es', ha', hkeys⟩ := hprovides.valid.ahead_write ha₁ hkeyed.hasCell v
    refine ⟨es', ha', fun p hp => hkeys p fun x hx => ⟨?_, (hp x hx).2⟩⟩
    have hpresent := present_eq hcontents hv hprovides.valid x
    rw [(hp x hx).1] at hpresent
    exact hpresent

theorem Valid.run (hv : Valid h t) (call : Call) : Valid h (call.run h t) := by
  cases call with
  | get q => exact ((touched_get q).valid hv).1
  | set q v c => exact (hv.performs_set c q v).valid

/-- A traversal bears a permitted call. -/
theorem Valid.carried_run (hv : Valid h t) (ha : t.Ahead k es) {call : Call}
    (hp : Permitted h t k call) : ∃ es', Carried h t (call.run h t) k es es' := by
  cases call with
  | get q => exact ⟨es, .of_ahead (hv.carried_get ha hp.away)⟩
  | set q v c => exact hv.carried_set ha hp

structure Moment where
  table : Table
  returned : Option (Value × Value)

inductive Walk (h : StringHash) : Table → Value → List Moment → Table → Value → Prop
  | refl (t : Table) (k : Value) : Walk h t k [] t k
  | call {t t' : Table} {k k' : Value} {ms : List Moment} (call : Call)
      (hp : Permitted h t k call) (hw : Walk h (call.run h t) k ms t' k') :
      Walk h t k (⟨call.run h t, none⟩ :: ms) t' k'
  | next {t t' : Table} {k k' : Value} {ms : List Moment} {e : Value × Value}
      (hn : t.next h k = .ok (some e)) (hw : Walk h t e.1 ms t' k') :
      Walk h t k (⟨t, some e⟩ :: ms) t' k'

def listed (ms : List Moment) : List Value :=
  ms.filterMap fun m => m.returned.map Prod.fst

/-- Whether a key is present from the table `t` on through all moments. -/
def throughout (h : StringHash) (t : Table) (ms : List Moment) (k : Value) : Bool :=
  t.present h k && ms.all fun m => m.table.present h k

variable {ms : List Moment} {m : Moment}

/-- The entry that a step returns was ahead and is present. No other entry ahead has its key. -/
theorem Valid.ahead_next (hv : Valid h t) (ha : t.Ahead k es)
    (hn : t.next h k = .ok (some e)) : ∃ es', es = e :: es' ∧ t.Ahead e.1 es' ∧
      (t.get h e.1).1 = some e.2 ∧ ∀ a ∈ es', a.1.equal e.1 = false := by
  rw [hv.next_of_ahead ha, Except.ok.injEq] at hn
  obtain ⟨es', rfl⟩ := List.head?_eq_some_iff.1 hn
  obtain ⟨as, hs⟩ := ha.suffix
  have hproper := hv.proper_contents
  have hmem : e ∈ t.contents := by
    rw [hs]
    simp
  refine ⟨es', rfl, hv.ahead_tail ha, ?_, fun a hmem' => ?_⟩
  · rw [hv.get_eq_lookup, lookup_eq_some_iff hproper]
    exact ⟨e, hmem, (hproper.isKey e hmem).equal_self, rfl⟩
  · have hdistinct := hproper.distinct
    rw [hs] at hdistinct
    rw [Value.equal_comm]
    exact (List.pairwise_cons.1 (List.pairwise_append.1 hdistinct).2.1).1 a hmem'

theorem Valid.present_congr (hv : Valid h t) {a b : Value} (he : a.equal b = true) :
    t.present h a = t.present h b := by
  rw [Bool.eq_iff_iff, present, present, hv.present_iff, hv.present_iff]
  exact exists_congr fun e => and_congr_right fun _ => by rw [Value.equal_right he]

theorem throughout_cons : throughout h t (m :: ms) q =
    (t.present h q && throughout h m.table ms q) := by
  rw [throughout, throughout, List.all_cons]

theorem present_of_throughout (hq : throughout h t ms q = true) : t.present h q = true :=
  (Bool.and_eq_true_iff.1 hq).1

/-- The keys ahead that stay present are those returned on the way and those ahead at its end. -/
theorem Walk.ahead (hw : Walk h t k ms t' q) (hv : Valid h t) (ha : t.Ahead k es) :
    Valid h t' ∧ ∃ es', t'.Ahead q es' ∧ ∀ p : Value → Bool,
      (∀ x, p x = true → throughout h t ms x = true) →
      keysWhere p es = (listed ms).filter p ++ keysWhere p es' := by
  induction hw generalizing es with
  | refl t k => exact ⟨hv, es, ha, fun p _ => rfl⟩
  | call call hp hw ih =>
    obtain ⟨es₁, ha₁, hkeys₁⟩ := hv.carried_run ha hp
    obtain ⟨hv', es', ha', hkeys⟩ := ih (hv.run call) ha₁
    refine ⟨hv', es', ha', fun p hthrough => ?_⟩
    simp only [throughout_cons, Bool.and_eq_true] at hthrough
    -- the call does not touch the keys that are present before and after it
    have hbefore : keysWhere p es₁ = keysWhere p _ :=
      hkeys₁ p fun x hx => ⟨(hthrough x hx).1, present_of_throughout (hthrough x hx).2⟩
    rw [← hbefore]
    exact hkeys p fun x hx => (hthrough x hx).2
  | @next t _ _ _ ms e hn hw ih =>
    obtain ⟨es₁, rfl, ha₁, -⟩ := hv.ahead_next ha hn
    obtain ⟨hv', es', ha', hkeys⟩ := ih hv ha₁
    refine ⟨hv', es', ha', fun p hthrough => ?_⟩
    simp only [throughout_cons, Bool.and_eq_true] at hthrough
    have hrest := hkeys p fun x hx => (hthrough x hx).2
    calc keysWhere p (e :: es₁)
        = [e.1].filter p ++ keysWhere p es₁ := List.filter_append [e.1] _
      _ = [e.1].filter p ++ (listed ms).filter p ++ keysWhere p es' := by
          rw [hrest, List.append_assoc]
      _ = (listed (⟨t, some e⟩ :: ms)).filter p ++ keysWhere p es' := by
          rw [← List.filter_append]
          rfl

theorem Walk.split {as bs : List Moment} (hw : Walk h t k (as ++ bs) t' q) :
    ∃ t₁ k₁, Walk h t k as t₁ k₁ ∧ Walk h t₁ k₁ bs t' q := by
  induction as generalizing t k with
  | nil => exact ⟨t, k, .refl t k, hw⟩
  | cons m as ih =>
    cases hw with
    | call call hp hw =>
      obtain ⟨t₁, k₁, hw₁, hw₂⟩ := ih hw
      exact ⟨t₁, k₁, .call call hp hw₁, hw₂⟩
    | next hn hw =>
      obtain ⟨t₁, k₁, hw₁, hw₂⟩ := ih hw
      exact ⟨t₁, k₁, .next hn hw₁, hw₂⟩

theorem Walk.at_returned (hw : Walk h t k (m :: ms) t' q) (hv : Valid h t) (ha : t.Ahead k es)
    (hr : m.returned = some e) : m.table = t ∧ (t.get h e.1).1 = some e.2 ∧
      Walk h t e.1 ms t' q ∧ ∃ es', t.Ahead e.1 es' ∧ ∀ a ∈ es', a.1.equal e.1 = false := by
  cases hw with
  | call call hp hw => cases hr
  | next hn hw =>
    cases hr
    obtain ⟨es', -, ha', hget, hne⟩ := hv.ahead_next ha hn
    exact ⟨rfl, hget, hw, es', ha', hne⟩

theorem Walk.get_of_returned (hw : Walk h t k ms t' q) (hv : Valid h t) (ha : t.Ahead k es)
    (hm : m ∈ ms) (hr : m.returned = some e) : (m.table.get h e.1).1 = some e.2 := by
  obtain ⟨as, bs, rfl⟩ := List.append_of_mem hm
  obtain ⟨t₁, k₁, hw₁, hw₂⟩ := hw.split
  obtain ⟨hv₁, es₁, ha₁, -⟩ := hw₁.ahead hv ha
  obtain ⟨hm, hget, -⟩ := hw₂.at_returned hv₁ ha₁ hr
  rw [hm, hget]

/-- A call brings no key ahead that was present and not ahead already. -/
theorem Carried.equal_eq_false {es' : List (Value × Value)} (hc : Carried h t t' k es es')
    (hv : Valid h t) (hv' : Valid h t') {x : Value} (hx : t.present h x = true)
    (hx' : t'.present h x = true) (hno : ∀ e ∈ es, e.1.equal x = false) :
    ∀ e ∈ es', e.1.equal x = false := by
  intro e he
  rw [Bool.eq_false_iff]
  intro hex
  have hkeys := hc.keys (fun y => y.equal x) fun y hy =>
    ⟨(hv.present_congr hy).trans hx, (hv'.present_congr hy).trans hx'⟩
  have hmem : e.1 ∈ keysWhere (fun y => y.equal x) es' :=
    List.mem_filter.2 ⟨List.mem_map_of_mem he, hex⟩
  rw [hkeys, keysWhere, List.mem_filter, List.mem_map] at hmem
  obtain ⟨⟨a, ha, hae⟩, -⟩ := hmem
  rw [← hae, hno a ha] at hex
  cases hex

theorem Walk.absent_before (hw : Walk h t k ms t' q) (hv : Valid h t) (ha : t.Ahead k es)
    {x : Value} (hx : t.present h x = true) (hno : ∀ e ∈ es, e.1.equal x = false)
    {as bs : List Moment} (hms : ms = as ++ m :: bs) (hr : m.returned = some e)
    (he : e.1.equal x = true) : ∃ m' ∈ as, m'.table.present h x = false := by
  induction hw generalizing es as with
  | refl t k => simp at hms
  | @call t _ _ _ _ call hp hw ih =>
    obtain ⟨es₁, hc⟩ := hv.carried_run ha hp
    have hv₁ := hv.run call
    cases as with
    | nil =>
      cases hms
      cases hr
    | cons m₁ as =>
      rw [List.cons_append, List.cons.injEq] at hms
      obtain ⟨rfl, hms⟩ := hms
      -- either the call has cleared the key, or it is still not ahead
      by_cases hx₁ : (call.run h t).present h x = true
      · obtain ⟨m', hm', habsent⟩ :=
          ih hv₁ hc.ahead hx₁ (hc.equal_eq_false hv hv₁ hx hx₁ hno) hms
        exact ⟨m', List.mem_cons_of_mem _ hm', habsent⟩
      · exact ⟨_, List.mem_cons_self, Bool.not_eq_true _ ▸ hx₁⟩
  | next hn hw ih =>
    obtain ⟨es₁, rfl, ha₁, -⟩ := hv.ahead_next ha hn
    cases as with
    | nil =>
      cases hms
      cases hr
      rw [hno e List.mem_cons_self] at he
      cases he
    | cons m₁ as =>
      rw [List.cons_append, List.cons.injEq] at hms
      obtain ⟨-, hms⟩ := hms
      obtain ⟨m', hm', habsent⟩ :=
        ih hv ha₁ hx (fun a ha => hno a (List.mem_cons_of_mem _ ha)) hms
      exact ⟨m', List.mem_cons_of_mem _ hm', habsent⟩

/-- A key that is returned twice has been absent in between. -/
theorem Walk.absent_between {as bs cs : List Moment} {m₁ m₂ : Moment} {e₁ e₂ : Value × Value}
    (hw : Walk h t k (as ++ m₁ :: (bs ++ m₂ :: cs)) t' q) (hv : Valid h t) (ha : t.Ahead k es)
    (hr₁ : m₁.returned = some e₁) (hr₂ : m₂.returned = some e₂)
    (he : e₁.1.equal e₂.1 = true) : ∃ m ∈ bs, m.table.present h e₁.1 = false := by
  obtain ⟨t₁, k₁, hw₁, hw₂⟩ := hw.split
  obtain ⟨hv₁, es₁, ha₁, -⟩ := hw₁.ahead hv ha
  obtain ⟨-, hget, hw₃, es₂, ha₂, hne⟩ := hw₂.at_returned hv₁ ha₁ hr₁
  have hpresent : t₁.present h e₁.1 = true := by
    rw [present, hget]
    rfl
  rw [Value.equal_comm] at he
  exact hw₃.absent_before hv₁ ha₂ hpresent hne rfl hr₂ he

theorem Walk.throughout_congr (hw : Walk h t k ms t' q) (hv : Valid h t) {a b : Value}
    (he : a.equal b = true) : throughout h t ms a = throughout h t ms b := by
  induction hw with
  | refl t k => exact congrArg (· && true) (hv.present_congr he)
  | call call hp hw ih =>
    rw [throughout_cons, throughout_cons, hv.present_congr he, ih (hv.run call)]
  | next hn hw ih => rw [throughout_cons, throughout_cons, hv.present_congr he, ih hv]

/-- A key of a ledger is listed once. -/
theorem countP_keys {m : Ledger} (hm : Proper m) {x : Value}
    (hx : ∃ e ∈ m, e.1.equal x = true) : (m.map Prod.fst).countP (fun y => y.equal x) = 1 := by
  obtain ⟨e, he, hex⟩ := hx
  obtain ⟨as, bs, rfl⟩ := List.append_of_mem he
  have hd := List.pairwise_append.1 hm.distinct
  have has : ∀ a ∈ as, ¬a.1.equal x = true := by
    intro a ha
    rw [← Value.equal_right hex, hd.2.2 a ha e List.mem_cons_self]
    exact Bool.false_ne_true
  have hbs : ∀ b ∈ bs, ¬b.1.equal x = true := by
    intro b hb
    rw [← Value.equal_right hex, Value.equal_comm, (List.pairwise_cons.1 hd.2.1).1 b hb]
    exact Bool.false_ne_true
  rw [List.countP_map, Function.comp_def, List.countP_append, List.countP_cons, if_pos hex,
    List.countP_eq_zero.2 has, List.countP_eq_zero.2 hbs]

/-- Of the keys that stay present all the time, those returned are those of the first table. -/
theorem Walk.listed_eq (hw : Walk h t .nil ms t' q) (hv : Valid h t)
    (hend : t'.next h q = .ok none) {p : Value → Bool}
    (hp : ∀ x, p x = true → throughout h t ms x = true) :
    (listed ms).filter p = keysWhere p t.contents := by
  obtain ⟨hv', es', ha', hkeys⟩ := hw.ahead hv (ahead_nil t)
  rw [hv'.next_of_ahead ha', Except.ok.injEq, List.head?_eq_none_iff] at hend
  rw [hkeys p hp, hend]
  exact (List.append_nil _).symm

theorem Walk.countP_listed (hw : Walk h t .nil ms t' q) (hv : Valid h t)
    (hend : t'.next h q = .ok none) {x : Value} (hx : throughout h t ms x = true) :
    (listed ms).countP (fun y => y.equal x) = 1 := by
  have hsame := hw.listed_eq hv hend fun y hy => (hw.throughout_congr hv hy).trans hx
  rw [List.countP_eq_length_filter, hsame, keysWhere, ← List.countP_eq_length_filter]
  exact countP_keys hv.proper_contents (hv.present_iff.1 (present_of_throughout hx))

theorem pairwise_since {log : List (Value × Value)} {m : Ledger} {p : Value → Bool}
    (hm : Chronological log m.outside) :
    (keysWhere (fun x => p x && x.neverInArray) m).Pairwise
      fun a b => ∃ i j, since log a = some i ∧ since log b = some j ∧ i < j := by
  have hkeys : (m.outside.map Prod.fst).Pairwise
      fun a b => ∃ i j, since log a = some i ∧ since log b = some j ∧ i < j :=
    List.pairwise_map.2 hm
  rw [keysWhere, ← List.filter_filter, List.filter_map]
  exact hkeys.filter p

/-- A traversal of a table that changes, from the start: no step fails, what is returned is present
then, and a key that is returned twice has been absent in between. At the end each key that has been
present all the time has been returned once: first those of the array part by index, then those of
the hash part as the first table links them, the ones that no array part takes from the longest
present on. -/
theorem Reachable.walk_exact (hs : Reachable h s) (hw : Walk h s.table .nil ms t' k) :
    (∃ e?, t'.next h k = .ok e?) ∧
    (∀ m ∈ ms, ∀ e, m.returned = some e → (m.table.get h e.1).1 = some e.2) ∧
    (∀ as m₁ bs m₂ cs e₁ e₂, ms = as ++ m₁ :: (bs ++ m₂ :: cs) → m₁.returned = some e₁ →
      m₂.returned = some e₂ → e₁.1.equal e₂.1 = true →
      ∃ m ∈ bs, m.table.present h e₁.1 = false) ∧
    (t'.next h k = .ok none →
      (∀ x, throughout h s.table ms x = true →
        (listed ms).countP (fun y => y.equal x) = 1) ∧
      (listed ms).filter (throughout h s.table ms) =
        keysWhere (throughout h s.table ms) (s.table.displaced 0) ++
          keysWhere (throughout h s.table ms) s.table.slotEntries ∧
      ((listed ms).filter fun x => throughout h s.table ms x && x.neverInArray).Pairwise
        fun a b => ∃ i j, since s.log a = some i ∧ since s.log b = some j ∧ i < j) := by
  have hv := hs.sound.valid
  have hstart := ahead_nil s.table
  refine ⟨?_, fun m hm e hr => hw.get_of_returned hv hstart hm hr, ?_, fun hend =>
    ⟨fun x hx => hw.countP_listed hv hend hx, ?_, ?_⟩⟩
  · obtain ⟨hv', es', ha', -⟩ := hw.ahead hv hstart
    exact ⟨_, hv'.next_of_ahead ha'⟩
  · intro as m₁ bs m₂ cs e₁ e₂ hms hr₁ hr₂ he
    rw [hms] at hw
    exact hw.absent_between hv hstart hr₁ hr₂ he
  · rw [hw.listed_eq hv hend fun _ hx => hx, contents, keysWhere, List.map_append,
      List.filter_append]
    rfl
  · rw [hw.listed_eq hv hend fun x hx => (Bool.and_eq_true_iff.1 hx).1]
    exact pairwise_since hs.sound.chronological

def couple : History :=
  let c := Collector.new 0 1000
  (History.start .ofContent c 0 4).run .ofContent
    [(.set (.boolean true) (.boolean true), c), (.set (.boolean false) (.boolean true), c)]

theorem reachable_couple : Reachable .ofContent couple := .step _ _ (.step _ _ (.start (by rfl)))

/-- The first key is cleared as soon as it is returned, and stored again after a new one, so that it
is returned twice. The second one stays. -/
theorem walk_exact_couple :
    ∃ ms t' k, Walk .ofContent couple.table .nil ms t' k ∧
      listed ms = [.boolean true, .boolean false, .lightUserdata 7, .boolean true] ∧
      (listed ms).filter (throughout .ofContent couple.table ms) = [.boolean false] ∧
      t'.next .ofContent k = .ok none := by
  let c := Collector.new 0 1000
  let clear := Call.set (.boolean true) .nil c
  let look := Call.get (.boolean false)
  let add := Call.set (.lightUserdata 7) (.boolean true) c
  let restore := Call.set (.boolean true) (.boolean false) c
  let cleared := clear.run .ofContent couple.table
  let looked := look.run .ofContent cleared
  let added := add.run .ofContent looked
  let restored := restore.run .ofContent added
  let v := Value.boolean true
  have hclear : Permitted .ofContent couple.table (.boolean true) clear := by
    refine ⟨by decide +kernel, fun hc => ?_, fun hc => ?_⟩
    · exact absurd hc.2 (by decide +kernel)
    · exact absurd hc.2 (by decide +kernel)
  have hlook : Permitted .ofContent cleared (.boolean true) look := by
    refine ⟨by decide +kernel, fun _ => by decide +kernel, fun _ hnone => ?_⟩
    exact absurd hnone (by decide +kernel)
  have hadd : Permitted .ofContent looked (.boolean false) add := by
    refine ⟨by decide +kernel, fun hc => ?_, fun hc => ?_⟩
    · exact absurd hc.2 (by decide +kernel)
    · exact absurd hc.2 (by decide +kernel)
  have hrestore : Permitted .ofContent added (.boolean false) restore := by
    refine ⟨by decide +kernel, fun hc => ?_, fun hc => ?_⟩
    · exact absurd hc.2 (by decide +kernel)
    · exact absurd hc.2 (by decide +kernel)
  have hwalk : Walk .ofContent couple.table .nil
      [⟨couple.table, some (v, v)⟩, ⟨cleared, none⟩, ⟨looked, none⟩,
        ⟨looked, some (.boolean false, v)⟩, ⟨added, none⟩, ⟨restored, none⟩,
        ⟨restored, some (.lightUserdata 7, v)⟩, ⟨restored, some (v, .boolean false)⟩]
      restored v := by
    apply Walk.next (by decide +kernel)
    apply Walk.call clear hclear
    apply Walk.call look hlook
    apply Walk.next (by decide +kernel)
    apply Walk.call add hadd
    apply Walk.call restore hrestore
    apply Walk.next (by decide +kernel)
    apply Walk.next (by decide +kernel)
    exact .refl _ _
  have hend : restored.next .ofContent v = .ok none := by decide +kernel
  obtain ⟨-, hkept, -⟩ := (reachable_couple.walk_exact hwalk).2.2.2 hend
  refine ⟨_, restored, v, hwalk, rfl, ?_, hend⟩
  rw [hkept]
  decide +kernel

end LuaData.Table
