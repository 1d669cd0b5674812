import LuaData.Proofs.Table.Reshape

namespace LuaData.Table

open Collector

variable {h : SeededHash} {s : History} {t t' : Table} {k v : Value} {c c' c'' : Collector}

/-- There is no place for the key `k` in the hash part: the part is empty, or all its slots are used
and that at the main position of the key holds a value. -/
def Cramped (h : StringHash) (t : Table) (k : Value) : Prop :=
  t.slots.size = 0 ∨ (∀ i < t.slots.size, t.Used i) ∧
    (t.slot (k.mainPosition h t.slots.size)).isLive = true

theorem Valid.freeBelow_eq_none_iff (hv : Valid h t) :
    t.freeBelow t.lastFree = none ↔ ∀ i < t.slots.size, t.Used i := by
  rw [Table.freeBelow_eq_none_iff]
  refine ⟨fun hused i hi => ?_, fun hused i hi => hused i (hi.trans_le hv.lastFree_le)⟩
  rcases Nat.lt_or_ge i t.lastFree with hlt | hge
  · exact hused i hlt
  · exact hv.full i hge hi

theorem Valid.insert?_eq_none_iff (hv : Valid h t) (k : Value) :
    t.insert? h k = none ↔ Cramped h t k := by
  rw [insert?, Option.map_eq_none_iff, place?, Cramped]
  rcases Nat.eq_zero_or_pos t.slots.size with hzero | hpos
  · rw [home?, if_pos (Array.isEmpty_iff_size_eq_zero.2 hzero)]
    simp [hzero]
  · rw [home?_eq_some hpos]
    dsimp only
    split_ifs with hlive
    · rw [Option.map_eq_none_iff, hv.freeBelow_eq_none_iff]
      simp [hlive, hpos.ne']
    · simp [hlive, hpos.ne']

theorem requested_freePart (c : Collector) (b : Block) (n : Nat) :
    Requested c (if n = 0 then c else c.free b n) [] := by
  split_ifs
  · exact .refl c
  · exact requested_free c b n

theorem requested_requestParts (t : Table) (c : Collector) (a n : Nat) :
    Requested c (t.requestParts c a n).2 [.hashPart, .arrayPart] := by
  have hhash : Requested c (if n = 0 then (true, c) else c.alloc .hashPart n).2 [.hashPart] := by
    by_cases hn : n = 0
    · rw [if_pos hn]
      exact (Requested.refl c).mono (List.nil_sublist _)
    · rw [if_neg hn]
      exact requested_alloc c .hashPart n
  have hsub : [Block.hashPart].Sublist [.hashPart, .arrayPart] := by simp
  unfold requestParts
  generalize (if n = 0 then (true, c) else c.alloc .hashPart n) = r at hhash ⊢
  obtain ⟨granted, c₁⟩ := r
  cases granted with
  | false => exact hhash.mono hsub
  | true =>
    simp only [Bool.not_true, Bool.false_eq_true, if_false]
    by_cases ha : a = t.array.size
    · rw [if_pos ha]
      exact hhash.mono hsub
    · rw [if_neg ha]
      have hparts := hhash.trans (requested_realloc c₁ .arrayPart t.array.size a)
      generalize c₁.realloc .arrayPart t.array.size a = r at hparts ⊢
      obtain ⟨granted', c₂⟩ := r
      cases granted' with
      | true => exact hparts
      | false => exact hparts.trans (requested_freePart c₂ .hashPart n)

theorem requested_noteKeys (c : Collector) (es : List (Value × Value)) :
    Requested c (noteKeys c es) [] := by
  induction es generalizing c with
  | nil => exact .refl c
  | cons e es ih => exact (requested_noteStored c e.1).trans (ih _)

/-- A resize asks for one hash part and one array part at most. -/
theorem requested_resize (t : Table) (c : Collector) (a n : Nat) :
    Requested c (t.resize h c a n).collector [.hashPart, .arrayPart] := by
  unfold resize
  dsimp only
  split
  · exact (Requested.refl c).mono (List.nil_sublist _)
  · have hparts := requested_requestParts t c (min a maxArraySize)
      (capacity (max n (t.overflowCount (min a maxArraySize))))
    generalize t.requestParts c _ _ = r at hparts ⊢
    obtain ⟨granted, c₁⟩ := r
    cases granted with
    | false => exact hparts
    | true =>
      simp only [Array.isEmpty_iff_size_eq_zero]
      exact (hparts.trans (requested_noteKeys c₁ _)).trans (requested_freePart _ .hashPart _)

def Rehashed (c c' : Collector) : Prop :=
  ∃ text, Requested (c.log .debug text) c' [.hashPart, .arrayPart]

theorem rehashed_rehash (t : Table) (c : Collector) (k : Value) :
    Rehashed c (t.rehash h c k).collector := ⟨_, requested_resize t _ _ _⟩

theorem Rehashed.trans (hr : Rehashed c c') (hq : Requested c' c'' []) : Rehashed c c'' := by
  obtain ⟨text, hc⟩ := hr
  exact ⟨text, hc.trans hq⟩

theorem Rehashed.remarks (hr : Rehashed c c') :
    ∃ text, c'.remarks = c.remarks ++ [⟨.debug, text⟩] := by
  obtain ⟨text, hc⟩ := hr
  exact ⟨text, hc.remarks.trans (remarks_log ..)⟩

def AsksOnce (c c' : Collector) : Prop :=
  ∃ acts, c' = c.performAll acts ∧ (acts.filterMap Act.asked?).Sublist [.hashPart, .arrayPart]

theorem Rehashed.asksOnce (hr : Rehashed c c') : AsksOnce c c' := by
  obtain ⟨text, acts, rfl, hs, -⟩ := hr
  exact ⟨.log .debug text :: acts, rfl, hs⟩

theorem asksOnce_of_requested (hq : Requested c c' []) : AsksOnce c c' := by
  obtain ⟨acts, hc, hs, -⟩ := hq
  exact ⟨acts, hc, hs.trans (List.nil_sublist _)⟩

theorem AsksOnce.trans (ha : AsksOnce c c') (hq : Requested c' c'' []) : AsksOnce c c'' := by
  obtain ⟨acts, rfl, hs⟩ := ha
  obtain ⟨acts', rfl, hs', -⟩ := hq
  refine ⟨acts ++ acts', (performAll_append ..).symm, ?_⟩
  rw [List.filterMap_append, List.sublist_nil.1 hs', List.append_nil]
  exact hs

theorem Valid.roomy_resize (hv : Valid h t) {a n : Nat}
    (hok : (t.resize h c a n).result = .ok ()) :
    Roomy h t (t.resize h c a n).table.array.size (t.resize h c a n).table.slots.size := by
  have hr := hv.reshaped_rebuild (Nat.min_le_right a maxArraySize)
    (Nat.le_max_right n (t.overflowCount (min a maxArraySize)))
  rw [table_resize hok, hr.array_size]
  exact hr.roomy

theorem Valid.roomy_rehash (hv : Valid h t) (hok : (t.rehash h c k).result = .ok ()) :
    Roomy h t (t.rehash h c k).table.array.size (t.rehash h c k).table.slots.size :=
  hv.roomy_resize hok

/-- A rehash that is granted stores all entries anew without another one. Nor does the key need
one. -/
theorem Valid.room_of_rehash (hv : Valid h t) (hk : k.IsKey) (hc : Cramped h t k) {t₁ : Table}
    {c₁ : Collector}
    (hr : (t.mark 0).rehash h c k = ⟨.ok (), t₁, c₁⟩) :
    Roomy h t t₁.array.size t₁.slots.size ∧ ((∃ cell, t₁.Keyed cell k) ∨ ¬Cramped h t₁ k) := by
  have hins := (hv.insert?_eq_none_iff k).2 hc
  constructor
  · have hv₀ : Valid h (t.mark 0) := hv.exhausted (hv.full_of_insert?_eq_none hins)
    have hmoved : (t.mark 0).entriesToMove t₁.array.size = t.entriesToMove t₁.array.size := by
      rw [entriesToMove, displaced_congr (t.array_mark 0)]
      rfl
    have hroomy := hv₀.roomy_rehash (congrArg Outcome.result hr)
    rw [hr, Roomy, hmoved] at hroomy
    exact hroomy
  · rcases hv.create_of_full hk hins c with ⟨e, c', hr', -⟩ |
      ⟨t₂, c₂, a, n, hr', hres, ⟨cell, hcell, -⟩ | ⟨i, t₃, hins', -⟩⟩ <;> cases hr.symm.trans hr'
    · exact .inl ⟨cell, hcell⟩
    · refine .inr fun hcramped => ?_
      rw [(hres.valid.insert?_eq_none_iff k).2 hcramped] at hins'
      cases hins'

theorem rehash_error {e : TableError} (he : (t.rehash h c k).result = .error e) :
    e = .overflow ∨ e = .outOfMemory := by
  unfold rehash at he
  dsimp only at he
  rcases resize_outcome h t _ _ _ with ⟨-, hr⟩ | ⟨-, c', hr, -⟩ | ⟨-, c', hr, -⟩ <;>
    rw [hr] at he <;> cases he
  · exact .inl rfl
  · exact .inr rfl

/-- What a store under the key `k` may cost, where `creates` tells whether a missing key is given a
cell. Each rehash leaves a remark in the journal, and nothing else does. -/
structure GrowsOnce {α : Type} (h : StringHash) (t : Table) (c : Collector) (k : Value)
    (creates : Prop) (o : Outcome α) : Prop where
  found : (∃ cell, t.Keyed cell k) → (∃ x, o.result = .ok x) ∧
    o.table.array.size = t.array.size ∧ o.table.slots.size = t.slots.size ∧
    o.collector.remarks = c.remarks
  spared : k.IsKey → (∀ cell, ¬t.Keyed cell k) → ¬creates →
    (∃ x, o.result = .ok x) ∧ o.table = t ∧ o.collector = c
  placed : k.IsKey → (∀ cell, ¬t.Keyed cell k) → creates → ¬Cramped h t k →
    (∃ x, o.result = .ok x) ∧ o.table.array.size = t.array.size ∧
    o.table.slots.size = t.slots.size ∧ o.collector.remarks = c.remarks
  rehashed : k.IsKey → (∀ cell, ¬t.Keyed cell k) → creates → Cramped h t k →
    ∃ text, o.collector.remarks = c.remarks ++ [⟨.debug, text⟩]
  keyed : creates → ∀ x, o.result = .ok x → ∃ cell, o.table.Keyed cell k
  failed : ∀ e, o.result = .error e →
    e = .nilIndex ∧ k = .nil ∨ (e = .nanIndex ∧ ∃ x, k = .number x ∧ x.isNaN = true) ∨
      (e = .overflow ∨ e = .outOfMemory) ∧ (∀ cell, ¬t.Keyed cell k) ∧ Cramped h t k ∧
        ((t.mark 0).rehash h c k).result = .error e
  asksOnce : AsksOnce c o.collector

theorem Valid.grows_create (hv : Valid h t) (hk : k.IsKey) (hnew : t.cell? h k = none)
    (c : Collector) : GrowsOnce h t c k True (t.create h c k) := by
  have hno := hv.cell?_eq_none_iff.1 hnew
  have hfound : ∀ {p : Prop}, (∃ cell, t.Keyed cell k) → p := fun ⟨cell, hc⟩ => absurd hc (hno cell)
  by_cases hcramped : Cramped h t k
  · -- one rehash, which decides whether there is a cell
    have hr : Rehashed c (t.create h c k).collector ∧
        ((∃ e, (t.create h c k).result = .error e ∧
          ((t.mark 0).rehash h c k).result = .error e) ∨
        ∃ cell, (t.create h c k).result = .ok cell ∧ (t.create h c k).table.Keyed cell k) := by
      have hrehash := rehashed_rehash (h := h) { t with lastFree := 0 } c k
      rcases hv.create_of_full hk ((hv.insert?_eq_none_iff k).2 hcramped) c with
        ⟨e, c', hr, ho⟩ | ⟨t₁, c₁, a, n, hr, hres, ⟨cell, hcell, ho⟩ | ⟨i, t₂, -, hi, ho⟩⟩ <;>
        rw [hr] at hrehash <;> rw [ho]
      · exact ⟨hrehash, .inl ⟨e, rfl, congrArg Outcome.result hr⟩⟩
      · exact ⟨hrehash, .inr ⟨cell, rfl, (keyed_touch ..).2 hcell⟩⟩
      · exact ⟨hrehash.trans (requested_noteStored ..), .inr ⟨_, rfl, hi.keyed hk⟩⟩
    generalize t.create h c k = o at hr ⊢
    obtain ⟨hr, hresult⟩ := hr
    constructor
    case found => exact hfound
    case spared => exact fun _ _ hcreates => absurd trivial hcreates
    case placed => exact fun _ _ _ hroom => absurd hcramped hroom
    case rehashed => exact fun _ _ _ _ => hr.remarks
    case keyed =>
      intro _ x hx
      rcases hresult with ⟨e, he, -⟩ | ⟨cell, -, hcell⟩
      · rw [hx] at he
        cases he
      · exact ⟨cell, hcell⟩
    case failed =>
      intro e he
      rcases hresult with ⟨e', he', hrehash⟩ | ⟨cell, hcell, -⟩
      · rw [he] at he'
        cases he'
        exact .inr (.inr ⟨rehash_error hrehash, hno, hcramped, hrehash⟩)
      · rw [he] at hcell
        cases hcell
    case asksOnce => exact hr.asksOnce
  · -- there is a place for the key, so nothing is asked for
    obtain ⟨⟨i, t'⟩, hins⟩ := Option.ne_none_iff_exists'.1 fun hnone =>
      hcramped ((hv.insert?_eq_none_iff k).1 hnone)
    have hi := hv.inserted hk hnew hins
    rw [create_of_insert? hins]
    have hquiet := requested_noteStored c k
    constructor
    case found => exact hfound
    case spared => exact fun _ _ hcreates => absurd trivial hcreates
    case placed =>
      exact fun _ _ _ _ => ⟨⟨_, rfl⟩, congrArg Array.size hi.array, hi.size, hquiet.remarks⟩
    case rehashed => exact fun _ _ _ hc => absurd hc hcramped
    case keyed => exact fun _ _ _ => ⟨_, hi.keyed hk⟩
    case failed => exact fun e he => by cases he
    case asksOnce => exact asksOnce_of_requested hquiet

theorem keyError?_eq_some {e : TableError} (he : keyError? k = some e) :
    e = .nilIndex ∧ k = .nil ∨ (e = .nanIndex ∧ ∃ x, k = .number x ∧ x.isNaN = true) := by
  unfold keyError? at he
  split at he
  · cases he
    exact .inl ⟨rfl, rfl⟩
  · rename_i x
    split_ifs at he with hx
    cases he
    exact .inr ⟨rfl, x, rfl, hx⟩
  · cases he

theorem Valid.grows_cellFor (hv : Valid h t) (c : Collector) (k : Value) :
    GrowsOnce h t c k True (t.cellFor h c k) := by
  unfold cellFor
  cases hkey : keyError? k with
  | some e =>
    have hnot : ¬k.IsKey := fun hk => by simp [Value.keyError?_eq_none_iff.2 hk] at hkey
    constructor
    case found => exact fun ⟨cell, hc⟩ => absurd (hc.isKey hv) hnot
    case failed =>
      intro e' he
      cases he
      exact (keyError?_eq_some hkey).imp id .inl
    case asksOnce => exact asksOnce_of_requested (.refl c)
    case keyed => exact fun _ x hx => by cases hx
    all_goals exact fun hk => absurd hk hnot
  | none =>
    dsimp only
    cases hcell : t.cell? h k with
    | none => exact hv.grows_create (Value.keyError?_eq_none_iff.1 hkey) hcell c
    | some cell =>
      have hc := hv.cell?_eq_some_iff.1 hcell
      have hhas : ∀ {p : Prop}, (∀ cell, ¬t.Keyed cell k) → p := fun hno => absurd hc (hno cell)
      constructor
      case found => exact fun _ => ⟨⟨cell, rfl⟩, by rw [array_touch], by rw [slots_touch], rfl⟩
      case keyed => exact fun _ _ _ => ⟨cell, (keyed_touch ..).2 hc⟩
      case failed => exact fun e he => by cases he
      case asksOnce => exact asksOnce_of_requested (.refl c)
      all_goals exact fun _ hno => hhas hno

theorem Valid.grows_set (hv : Valid h t) (c : Collector) (k v : Value) :
    GrowsOnce h t c k (v.isNil = false) (t.set h c k v) := by
  unfold set
  split_ifs with hskip
  · simp only [Bool.and_eq_true, Option.isNone_iff_eq_none] at hskip
    obtain ⟨⟨hkey, hcell⟩, hnil⟩ := hskip
    have hno := hv.cell?_eq_none_iff.1 hcell
    have hcreates : ∀ {p : Prop}, v.isNil = false → p := fun hv => by simp [hv] at hnil
    constructor
    case found => exact fun ⟨cell, hc⟩ => absurd hc (hno cell)
    case spared => exact fun _ _ _ => ⟨⟨(), rfl⟩, rfl, rfl⟩
    case keyed => exact hcreates
    case failed => exact fun e he => by cases he
    case asksOnce => exact asksOnce_of_requested (.refl c)
    all_goals exact fun _ _ => hcreates
  · have hcreates : k.IsKey → (∀ cell, ¬t.Keyed cell k) → v.isNil = false := fun hk hno => by
      rw [Value.keyError?_eq_none_iff.2 hk, hv.cell?_eq_none_iff.2 hno] at hskip
      simpa using hskip
    have hgrows := hv.grows_cellFor c k
    generalize t.cellFor h c k = o at hgrows ⊢
    obtain ⟨r, t₁, c₁⟩ := o
    have hquiet : Requested c₁ (c₁.noteStored .table v) [] := requested_noteStored c₁ v
    cases r with
    | error e =>
      exact {
        found := fun hc => by
          obtain ⟨⟨x, hx⟩, -⟩ := hgrows.found hc
          cases hx
        spared := fun hk hno hnot => absurd (hcreates hk hno) hnot
        placed := fun hk hno _ hroom => by
          obtain ⟨⟨x, hx⟩, -⟩ := hgrows.placed hk hno trivial hroom
          cases hx
        rehashed := fun hk hno _ => hgrows.rehashed hk hno trivial
        keyed := fun _ x hx => by cases hx
        failed := fun e' he => hgrows.failed e' (by cases he; rfl)
        asksOnce := hgrows.asksOnce }
    | ok cell =>
      exact {
        found := fun hc => by
          obtain ⟨-, harray, hslots, hremarks⟩ := hgrows.found hc
          exact ⟨⟨(), rfl⟩, (array_size_write ..).trans harray, (slots_size_write ..).trans hslots,
            hquiet.remarks.trans hremarks⟩
        spared := fun hk hno hnot => absurd (hcreates hk hno) hnot
        placed := fun hk hno _ hroom => by
          obtain ⟨-, harray, hslots, hremarks⟩ := hgrows.placed hk hno trivial hroom
          exact ⟨⟨(), rfl⟩, (array_size_write ..).trans harray, (slots_size_write ..).trans hslots,
            hquiet.remarks.trans hremarks⟩
        rehashed := fun hk hno _ hc => by
          obtain ⟨text, htext⟩ := hgrows.rehashed hk hno trivial hc
          exact ⟨text, hquiet.remarks.trans htext⟩
        keyed := fun _ _ _ => by
          obtain ⟨d, hd⟩ := hgrows.keyed trivial cell rfl
          exact ⟨d, (keyed_write ..).2 hd⟩
        failed := fun e he => by cases he
        asksOnce := hgrows.asksOnce.trans hquiet }

/-- A store rehashes the table only if its key has no cell and there is no place for one. It does so
once, whereupon there is a cell or a place, and it fails only for what is no key and with that
rehash. -/
theorem Reachable.grows_once (hs : Reachable h s) (c : Collector) (k v : Value) :
    GrowsOnce h s.table c k (v.isNil = false) (s.table.set h c k v) ∧
    GrowsOnce h s.table c k True (s.table.cellFor h c k) ∧
    (k.IsKey → Cramped h s.table k → ∀ t₁ c₁,
      (s.table.mark 0).rehash h c k = ⟨.ok (), t₁, c₁⟩ →
      Roomy h s.table t₁.array.size t₁.slots.size ∧
        ((∃ cell, t₁.Keyed cell k) ∨ ¬Cramped h t₁ k)) := by
  have hv := hs.sound.valid
  exact ⟨hv.grows_set c k v, hv.grows_cellFor c k, fun hk hc _ _ hr => hv.room_of_rehash hk hc hr⟩

/-- The only slot is taken, so a second key doubles the hash part. -/
theorem grows_once_crowded :
    let c := Collector.new 0 1000
    let o := crowded.table.set .ofContent c (.boolean false) (.boolean true)
    Cramped .ofContent crowded.table (.boolean false) ∧
      (∃ text, o.collector.remarks = [⟨.debug, text⟩]) ∧
      o.result = .ok () ∧ crowded.table.slots.size = 1 ∧ o.table.slots.size = 2 ∧
      (∃ cell, o.table.Keyed cell (.boolean false)) ∧ AsksOnce c o.collector := by
  intro c o
  have hgrows := (reachable_crowded.grows_once c (.boolean false) (.boolean true)).1
  have hkey : (Value.boolean false).IsKey := ⟨rfl, rfl⟩
  have hno : ∀ cell, ¬crowded.table.Keyed cell (.boolean false) :=
    reachable_crowded.sound.valid.cell?_eq_none_iff.1 (by decide +kernel)
  have hcramped : Cramped .ofContent crowded.table (.boolean false) := by
    refine .inr ⟨fun i hi => ?_, by decide +kernel⟩
    have hsize : crowded.table.slots.size = 1 := by decide +kernel
    obtain rfl : i = 0 := by omega
    rw [Used]
    decide +kernel
  have hok : o.result = .ok () := by decide +kernel
  exact ⟨hcramped, hgrows.rehashed hkey hno rfl hcramped, hok, by decide +kernel,
    by decide +kernel, hgrows.keyed rfl () hok, hgrows.asksOnce⟩

end LuaData.Table
