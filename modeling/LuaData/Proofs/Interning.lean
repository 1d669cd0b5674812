import LuaData.Proofs.Chunk.Charges

namespace LuaData

namespace Buckets

variable {bs : Buckets} {h : UInt64} {s : Str}

theorem mem_contents_iff : s ∈ bs.contents ↔ ∃ b ∈ bs, s ∈ b.2 := List.mem_flatMap

structure Placed (hash : List UInt8 → UInt64) (bs : Buckets) : Prop where
  keys : (bs.map Prod.fst).Nodup
  hashed : ∀ b ∈ bs, ∀ s ∈ b.2, hash s.bytes = b.1
  inhabited : ∀ b ∈ bs, b.2 ≠ []

variable {hash : List UInt8 → UInt64}

theorem placed_nil : Placed hash [] where
  keys := List.nodup_nil
  hashed _ hb := absurd hb List.not_mem_nil
  inhabited _ hb := absurd hb List.not_mem_nil

theorem placed_cons_iff {b : UInt64 × List Str} : Placed hash (b :: bs) ↔
    b.1 ∉ bs.map Prod.fst ∧ (∀ s ∈ b.2, hash s.bytes = b.1) ∧ b.2 ≠ [] ∧ Placed hash bs := by
  constructor
  · rintro ⟨hkeys, hhashed, hinhabited⟩
    obtain ⟨hb, hkeys⟩ := List.nodup_cons.1 hkeys
    obtain ⟨hbh, hhashed⟩ := List.forall_mem_cons.1 hhashed
    obtain ⟨hbi, hinhabited⟩ := List.forall_mem_cons.1 hinhabited
    exact ⟨hb, hbh, hbi, hkeys, hhashed, hinhabited⟩
  · rintro ⟨hb, hbh, hbi, hkeys, hhashed, hinhabited⟩
    exact ⟨List.nodup_cons.2 ⟨hb, hkeys⟩, List.forall_mem_cons.2 ⟨hbh, hhashed⟩,
      List.forall_mem_cons.2 ⟨hbi, hinhabited⟩⟩

theorem under_cons (b : UInt64 × List Str) (bs : Buckets) (h : UInt64) :
    under (b :: bs) h = if b.1 = h then b.2 else bs.under h := by
  rw [under, List.lookup_cons]
  split_ifs with hb
  · rw [hb, beq_self_eq_true]
    rfl
  · rw [beq_false_of_ne fun heq => hb heq.symm]
    rfl

/-- A look-up in one bucket sees all strings of the hash. -/
theorem Placed.mem_under_iff (hbs : Placed hash bs) :
    s ∈ bs.under h ↔ s ∈ bs.contents ∧ hash s.bytes = h := by
  induction bs with
  | nil => simp [under, contents]
  | cons b bs ih =>
    obtain ⟨hb, hbh, -, hbs⟩ := placed_cons_iff.1 hbs
    rw [under_cons, contents_cons, List.mem_append]
    split_ifs with hkey
    · -- the buckets behind have other hashes
      refine ⟨fun hs => ⟨.inl hs, (hbh s hs).trans hkey⟩, fun ⟨hs, hsh⟩ => hs.resolve_right ?_⟩
      intro hs
      obtain ⟨b', hb', hs⟩ := mem_contents_iff.1 hs
      have heq : b'.1 = b.1 := (hbs.hashed b' hb' s hs).symm.trans (hsh.trans hkey.symm)
      exact hb (heq ▸ List.mem_map_of_mem hb')
    · rw [ih hbs]
      refine and_congr_left fun hsh => ⟨.inr, fun hs => hs.resolve_left fun hs => ?_⟩
      exact hkey ((hbh s hs).symm.trans hsh)

theorem eq_or_mem_of_mem_push {k : UInt64} (hk : k ∈ (push h s bs).map Prod.fst) :
    k = h ∨ k ∈ bs.map Prod.fst := by
  induction bs with
  | nil => exact .inl (List.mem_singleton.1 hk)
  | cons b bs ih =>
    rw [push] at hk
    split at hk
    · exact .inr hk
    · rcases List.mem_cons.1 hk with rfl | hk
      · exact .inr List.mem_cons_self
      · exact (ih hk).imp_right (List.mem_cons_of_mem _)

theorem Placed.push (hbs : Placed hash bs) (s : Str) : Placed hash (bs.push (hash s.bytes) s) := by
  induction bs with
  | nil => exact placed_cons_iff.2 ⟨List.not_mem_nil, by simp, by simp, placed_nil⟩
  | cons b bs ih =>
    obtain ⟨hb, hbh, hbi, hbs⟩ := placed_cons_iff.1 hbs
    rw [Buckets.push]
    split_ifs with hkey
    · refine placed_cons_iff.2 ⟨hb, fun t ht => ?_, by simp, hbs⟩
      rcases List.mem_append.1 ht with ht | ht
      · exact hbh t ht
      · rw [List.mem_singleton.1 ht, hkey]
    · refine placed_cons_iff.2 ⟨fun hmem => ?_, hbh, hbi, ih hbs⟩
      exact (eq_or_mem_of_mem_push hmem).elim hkey hb

theorem Placed.retain (hbs : Placed hash bs) (held : Str → Bool) :
    Placed hash (bs.retain held) where
  keys := by
    have hsub : ((bs.retain held).map Prod.fst).Sublist (bs.map Prod.fst) := by
      have hmap : (bs.map fun b => (b.1, b.2.filter held)).map Prod.fst = bs.map Prod.fst := by
        rw [List.map_map]
        rfl
      rw [← hmap]
      exact List.filter_sublist.map Prod.fst
    exact hbs.keys.sublist hsub
  hashed b hb s hs := by
    obtain ⟨b, hmem, rfl⟩ := List.mem_map.1 (List.mem_filter.1 hb).1
    exact hbs.hashed b hmem s (List.mem_filter.1 hs).1
  inhabited b hb hnil := by
    have hne := (List.mem_filter.1 hb).2
    rw [hnil] at hne
    cases hne

theorem length_contents (bs : Buckets) (n : Nat) :
    bs.foldl (fun n b => n + b.2.length) n = n + bs.contents.length := by
  induction bs generalizing n with
  | nil => rfl
  | cons b bs ih => rw [List.foldl_cons, ih, contents_cons, List.length_append, Nat.add_assoc]

end Buckets

namespace Interner

variable {i : Interner} {bytes : List UInt8} {s : Str}

/-- Every string of the interner is short, the only one of its content, and found by its hash. -/
structure Tidy (i : Interner) : Prop where
  placed : i.buckets.Placed i.hash
  unique : (i.buckets.contents.map Str.bytes).Nodup
  short : ∀ s ∈ i.buckets.contents, s.bytes.length ≤ Str.shortLimit

theorem tidy_hashing (hash : List UInt8 → UInt64) (pool : Nat) : (hashing hash pool).Tidy where
  placed := Buckets.placed_nil
  unique := List.nodup_nil
  short _ hs := absurd hs List.not_mem_nil

theorem Tidy.find?_eq_some_iff (hi : i.Tidy) :
    i.find? bytes = some s ↔ s ∈ i.buckets.contents ∧ s.bytes = bytes := by
  rw [find?]
  constructor
  · intro h
    split at h
    · have hmem := hi.placed.mem_under_iff.1 (List.mem_of_find?_eq_some h)
      have hbytes := List.find?_some h
      exact ⟨hmem.1, eq_of_beq hbytes⟩
    · cases h
  · rintro ⟨hs, rfl⟩
    rw [if_pos (hi.short s hs)]
    have hunder : s ∈ i.buckets.under (i.hash s.bytes) := hi.placed.mem_under_iff.2 ⟨hs, rfl⟩
    obtain ⟨t, ht⟩ := Option.isSome_iff_exists.1
      (List.find?_isSome.2 ⟨s, hunder, beq_self_eq_true s.bytes⟩ :
        ((i.buckets.under (i.hash s.bytes)).find? fun t => t.bytes == s.bytes).isSome)
    have hmem := (hi.placed.mem_under_iff.1 (List.mem_of_find?_eq_some ht)).1
    have hbytes := List.find?_some ht
    rw [ht, List.inj_on_of_nodup_map hi.unique hmem hs (eq_of_beq hbytes)]

theorem Tidy.add (hi : i.Tidy) (hbytes : bytes.length ≤ Str.shortLimit)
    (hnone : i.find? bytes = none) : (i.add bytes).2.Tidy := by
  have hnew : bytes ∉ i.buckets.contents.map Str.bytes := by
    intro hmem
    obtain ⟨t, ht, htb⟩ := List.mem_map.1 hmem
    rw [hi.find?_eq_some_iff.2 ⟨ht, htb⟩] at hnone
    cases hnone
  have hperm : (i.add bytes).2.buckets.contents.Perm ((i.add bytes).1 :: i.buckets.contents) := by
    obtain ⟨before, after, hold, hpush⟩ :=
      Buckets.exists_contents_push (i.hash bytes) (i.add bytes).1 i.buckets
    rw [hold]
    exact (List.Perm.of_eq hpush).trans List.perm_middle
  refine ⟨hi.placed.push (i.add bytes).1, ?_, fun s hs => ?_⟩
  · rw [(hperm.map Str.bytes).nodup_iff, List.map_cons, List.nodup_cons]
    exact ⟨hnew, hi.unique⟩
  · rcases List.mem_cons.1 (hperm.mem_iff.1 hs) with rfl | hs
    · exact hbytes
    · exact hi.short s hs

theorem Tidy.sweep (hi : i.Tidy) (held : Str → Bool) : (i.sweep held).Tidy := by
  have hsub : (i.sweep held).buckets.contents.Sublist i.buckets.contents := by
    rw [show (i.sweep held).buckets.contents = i.buckets.contents.filter held from
      Buckets.contents_retain held i.buckets]
    exact List.filter_sublist
  exact ⟨hi.placed.retain held, hi.unique.sublist (hsub.map Str.bytes),
    fun s hs => hi.short s (hsub.subset hs)⟩

theorem size_eq (i : Interner) : i.size = i.strings.length := by
  rw [size, Buckets.length_contents, Nat.zero_add, i.perm_strings.length_eq]

/-- A bucket is dropped with its last string. -/
theorem Tidy.isEmpty_iff (hi : i.Tidy) : i.isEmpty = true ↔ i.size = 0 := by
  rw [isEmpty, List.isEmpty_iff, size, Buckets.length_contents, Nat.zero_add,
    List.length_eq_zero_iff, Buckets.contents, List.flatMap_eq_nil_iff]
  refine ⟨fun h b hb => absurd (h ▸ hb) List.not_mem_nil, fun h => ?_⟩
  exact List.eq_nil_iff_forall_not_mem.2 fun b hb => hi.placed.inhabited b hb (h b hb)

end Interner

abbrev ShortBytes := { bytes : List UInt8 // bytes.length ≤ Str.shortLimit }

/-- A collector and the handles on its short strings that others hold. -/
structure Custody where
  collector : Collector
  handles : List Str

namespace Custody

inductive Step where
  | create (content : ShortBytes)
  | drop (index : Nat)
  | sweep

def start (hash : List UInt8 → UInt64) (pool : Nat) (limit : Int) : Custody where
  collector := { Collector.new pool limit with interner := .hashing hash pool }
  handles := []

def step (k : Custody) : Step → Custody
  | .create content =>
    ⟨(k.collector.createString content).2,
      (k.collector.createString content).1.toList ++ k.handles⟩
  | .drop index => { k with handles := k.handles.eraseIdx index }
  | .sweep => { k with collector := k.collector.sweep k.handles.contains }

def run (k : Custody) (steps : List Step) : Custody := steps.foldl step k

/-- What holds at any time: all that is held is in the interner, which accounts for its strings. -/
structure Kept (k : Custody) : Prop where
  tidy : k.collector.interner.Tidy
  held : ∀ s ∈ k.handles, s ∈ k.collector.interner.strings
  total : k.collector.total = lengths k.collector.interner.strings

variable {k : Custody}

theorem kept_start (hash : List UInt8 → UInt64) (pool : Nat) (limit : Int) :
    (start hash pool limit).Kept where
  tidy := Interner.tidy_hashing hash pool
  held _ hs := absurd hs List.not_mem_nil
  total := rfl

theorem create_cases (c : Collector) (content : ShortBytes) :
    (∃ s c', c.createString content = (some s, c') ∧ c.interner.find? content = some s ∧
      c'.interner = c.interner ∧ c'.total = c.total) ∨
    (∃ c', c.createString content = (some (c.interner.add content).1, c') ∧
      c.interner.find? content = none ∧ c'.interner = (c.interner.add content).2 ∧
      c'.total = c.total + (c.interner.add content).1.length) ∨
    ∃ c', c.createString content = (none, c') ∧ c.interner.find? content = none ∧
      c'.interner = c.interner ∧ c'.total = c.total := by
  rcases c.createString_cases content with
    ⟨s, c', hc, hfind, h⟩ | ⟨s, c', hc, -, htotal, hmade, hnone⟩ | ⟨c', hc, h, hnone⟩
  · exact .inl ⟨s, c', hc, hfind, h.interner, h.total.trans (Int.add_zero _)⟩
  · rw [if_pos content.2, Prod.ext_iff] at hmade
    obtain ⟨(hs : s = _), hinterner⟩ := hmade
    have hshort : (c.interner.add content).1.isShort = true := decide_eq_true content.2
    have hbytes : Block.stringBytes.bytes content.1.length = (c.interner.add content).1.length :=
      Str.memory_of_isShort hshort
    rw [hbytes] at htotal
    exact .inr (.inl ⟨c', hs ▸ hc, hnone, hinterner, htotal⟩)
  · exact .inr (.inr ⟨c', hc, hnone, h.interner, h.total⟩)

theorem strings_sweep (k : Custody) : (k.step .sweep).collector.interner.strings =
    k.collector.interner.strings.filter k.handles.contains :=
  k.collector.interner.strings_sweep k.handles.contains

theorem Kept.create (hk : k.Kept) (content : ShortBytes) : (k.step (.create content)).Kept := by
  rw [step]
  rcases create_cases k.collector content with
    ⟨s, c', hc, hfind, hinterner, htotal⟩ | ⟨c', hc, hnone, hinterner, htotal⟩ |
    ⟨c', hc, -, hinterner, htotal⟩ <;> rw [hc]
  · have hs := (hk.tidy.find?_eq_some_iff.1 hfind).1
    refine ⟨hinterner ▸ hk.tidy, fun t ht => ?_, by rw [htotal, hinterner, hk.total]⟩
    rw [hinterner]
    rcases List.mem_cons.1 ht with rfl | ht
    · exact Interner.mem_strings_iff.2 hs
    · exact hk.held t ht
  · refine ⟨hinterner ▸ hk.tidy.add content.2 hnone, fun t ht => ?_, ?_⟩
    · rw [hinterner, Interner.strings_add]
      rcases List.mem_cons.1 ht with rfl | ht
      · exact List.mem_cons_self
      · exact List.mem_cons_of_mem _ (hk.held t ht)
    · rw [htotal, hinterner, Interner.strings_add, hk.total, lengths, lengths, total_cons]
      omega
  · exact ⟨hinterner ▸ hk.tidy, hinterner ▸ hk.held, by rw [htotal, hinterner, hk.total]⟩

theorem Kept.sweep (hk : k.Kept) : (k.step .sweep).Kept where
  tidy := hk.tidy.sweep k.handles.contains
  held s hs := by
    rw [strings_sweep]
    exact List.mem_filter.2 ⟨hk.held s hs, List.contains_iff_mem.2 hs⟩
  total := by
    have hsplit := total_eq_of_perm Str.length
      (List.filter_append_perm k.handles.contains k.collector.interner.strings)
    rw [total_append] at hsplit
    have hswept : (k.step .sweep).collector.total =
      k.collector.total - k.collector.interner.unheldBytes k.handles.contains := rfl
    rw [hswept, strings_sweep, Interner.unheldBytes_eq, hk.total, lengths, lengths, lengths]
    omega

theorem Kept.step (hk : k.Kept) (x : Step) : (k.step x).Kept := by
  cases x with
  | create content => exact hk.create content
  | drop index =>
    exact ⟨hk.tidy, fun s hs => hk.held s ((List.eraseIdx_sublist ..).subset hs), hk.total⟩
  | sweep => exact hk.sweep

theorem Kept.run (hk : k.Kept) (steps : List Step) : (k.run steps).Kept := by
  induction steps generalizing k with
  | nil => exact hk
  | cons x steps ih => exact ih (hk.step x)

/-- A content that somebody holds keeps its string. -/
theorem Kept.createString_of_mem (hk : k.Kept) {s : Str} (hs : s ∈ k.handles) :
    (k.collector.createString s.bytes).1 = some s := by
  have hmem := Interner.mem_strings_iff.1 (hk.held s hs)
  rw [Collector.createString, hk.tidy.find?_eq_some_iff.2 ⟨hmem, rfl⟩]

/-- Short strings are compared by identity, which comes to comparing their contents. -/
theorem Kept.equal_iff (hk : k.Kept) {s t : Str} (hs : s ∈ k.handles) (ht : t ∈ k.handles) :
    s.equal t = true ↔ s.bytes = t.bytes := by
  have hsi := Interner.mem_strings_iff.1 (hk.held s hs)
  have hti := Interner.mem_strings_iff.1 (hk.held t ht)
  rw [Str.equal_iff]
  constructor
  · rintro (rfl | ⟨-, hbytes⟩)
    · rfl
    · exact hbytes
  · exact fun hbytes => .inl (List.inj_on_of_nodup_map hk.tidy.unique hsi hti hbytes)

/-- A creation that is refused leaves what is interned and what is accounted for. -/
theorem of_createString_eq_none {content : ShortBytes}
    (hnone : (k.collector.createString content).1 = none) :
    (k.step (.create content)).collector.interner = k.collector.interner ∧
      (k.step (.create content)).collector.total = k.collector.total := by
  rw [step]
  rcases create_cases k.collector content with
    ⟨s, c', hc, -⟩ | ⟨c', hc, -⟩ | ⟨c', hc, -, hinterner, htotal⟩ <;> rw [hc] at hnone ⊢
  · cases hnone
  · cases hnone
  · exact ⟨hinterner, htotal⟩

/-- What a keeper of short strings owes to those who hold them. -/
structure Canonical (k : Custody) : Prop where
  /-- No two strings of the interner have the same content. -/
  unique : (k.collector.interner.strings.map Str.bytes).Nodup
  interned : ∀ s ∈ k.handles, s ∈ k.collector.interner.strings
  created : ∀ s ∈ k.handles, (k.collector.createString s.bytes).1 = some s
  equal : ∀ s ∈ k.handles, ∀ t ∈ k.handles, s.equal t = true ↔ s.bytes = t.bytes
  /-- A sweep removes the strings that nobody holds, and it keeps the others as they are. -/
  swept : (k.step .sweep).collector.interner.strings =
    k.collector.interner.strings.filter k.handles.contains
  size : k.collector.interner.size = k.collector.interner.strings.length
  isEmpty : k.collector.interner.isEmpty = true ↔ k.collector.interner.size = 0
  total : k.collector.total = lengths k.collector.interner.strings
  refused : ∀ content : ShortBytes, (k.collector.createString content).1 = none →
    (k.step (.create content)).collector.interner = k.collector.interner ∧
      (k.step (.create content)).collector.total = k.collector.total

/-- Strings are canonical after any history, whatever the hash and the limit are. -/
theorem canonical_run (hash : List UInt8 → UInt64) (pool : Nat) (limit : Int)
    (steps : List Step) : ((start hash pool limit).run steps).Canonical := by
  have hk := (kept_start hash pool limit).run steps
  refine ⟨?_, hk.held, fun s => hk.createString_of_mem, fun s hs t => hk.equal_iff hs,
    strings_sweep _, Interner.size_eq _, hk.tidy.isEmpty_iff, hk.total,
    fun content => of_createString_eq_none⟩
  -- by age or by buckets, these are the same strings
  rw [((Interner.perm_strings _).map Str.bytes).nodup_iff]
  exact hk.tidy.unique

end Custody

end LuaData
