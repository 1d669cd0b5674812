import LuaData.Chunk.Reader
import LuaData.Proofs.Chunk.Course
import LuaData.Proofs.Chunk.Reading
import LuaData.Proofs.Chunk.Records

namespace LuaData.Chunk

/-- Input that ends within one of the steps: the bytes that there are, and what is asked for in
front of that step. -/
inductive Cut : List Move → List UInt8 → List Need → Prop
  | here {m : Move} {ms : List Move} {part missing : List UInt8} :
    m.bytes = part ++ missing → missing ≠ [] → Cut (m :: ms) part []
  | later {m : Move} {ms : List Move} {part : List UInt8} {ns : List Need} :
    Cut ms part ns → Cut (m :: ms) (m.bytes ++ part) (m.asks ++ ns)

section Cut

variable {m : Move} {ms ms' : List Move} {part missing : List UInt8} {ns : List Need}

theorem Cut.taken_eq (h : Cut ms part ns) :
    ∃ missing, missing ≠ [] ∧ taken ms = part ++ missing := by
  induction h with
  | here hbytes hne => exact ⟨_, List.append_ne_nil_of_left_ne_nil hne _, by
      rw [taken_cons, hbytes, List.append_assoc]⟩
  | later _ ih =>
    obtain ⟨missing, hne, htaken⟩ := ih
    exact ⟨missing, hne, by rw [taken_cons, htaken, List.append_assoc]⟩

theorem Cut.prefix_needs (h : Cut ms part ns) : ns <+: needs ms := by
  induction h with
  | here => exact List.nil_prefix
  | later _ ih =>
    rw [needs_cons]
    exact (List.prefix_append_right_inj _).2 ih

/-- Whatever part of the bytes is missing, the input ends within a step. -/
theorem exists_cut (hne : missing ≠ []) (h : taken ms = part ++ missing) :
    ∃ ns, Cut ms part ns := by
  induction ms generalizing part with
  | nil =>
    rw [taken_nil, List.nil_eq, List.append_eq_nil_iff] at h
    exact absurd h.2 hne
  | cons m ms ih =>
    rw [taken_cons, List.append_eq_append_iff] at h
    rcases h with ⟨a, rfl, h⟩ | ⟨b, hm, hmissing⟩
    · obtain ⟨ns, hcut⟩ := ih h
      exact ⟨_, .later hcut⟩
    · by_cases hb : b = []
      · -- the step is complete, and the next one has begun
        subst hb hmissing
        obtain ⟨ns, hcut⟩ := ih (List.nil_append _).symm
        rw [List.append_nil] at hm
        rw [← hm, ← List.append_nil m.bytes]
        exact ⟨_, .later hcut⟩
      · exact ⟨[], .here hm hb⟩

theorem Cut.split (h : Cut (ms ++ ms') part ns) :
    Cut ms part ns ∨ ∃ part' ns', Cut ms' part' ns' ∧ part = taken ms ++ part' ∧
      ns = needs ms ++ ns' := by
  induction ms generalizing part ns with
  | nil => exact .inr ⟨part, ns, h, rfl, rfl⟩
  | cons m ms ih =>
    cases h with
    | here hbytes hne => exact .inl (.here hbytes hne)
    | later hlater =>
      rcases ih hlater with hcut | ⟨part', ns', hcut, rfl, rfl⟩
      · exact .inl (.later hcut)
      · exact .inr ⟨part', ns', hcut, by rw [taken_cons, List.append_assoc],
          by rw [needs_cons, List.append_assoc]⟩

/-- Ends of input do not depend on which strings have the contents. -/
theorem Cut.mapStr {f : Str → Str} (h : Cut ms part ns) :
    Cut (ms.map (Move.mapStr f)) part (ns.map (Need.mapStr f)) := by
  induction h with
  | here hbytes hne => exact .here ((Move.bytes_mapStr ..).trans hbytes) hne
  | @later m ms part ns _ ih =>
    rw [List.map_append, ← m.asks_mapStr, ← m.bytes_mapStr f]
    exact .later ih

end Cut

/-- The needs that requests express, notes aside. The strings are provisional, with numbers from `k`
on. -/
def numbered : Nat → List Request → List Need
  | _, [] => []
  | k, .block b n :: rs => .block b n :: numbered k rs
  | k, .text content :: rs => .text (Reader.provisional k content) :: numbered (k + 1) rs
  | k, .note _ :: rs => numbered k rs

theorem numbered_append (k : Nat) (rs rs' : List Request) :
    numbered k (rs ++ rs') = numbered k rs ++ numbered (k + (texts rs).length) rs' := by
  induction rs generalizing k with
  | nil => rfl
  | cons r rs ih =>
    cases r with
    | block b n => exact congrArg (.block b n :: ·) (ih k)
    | text content =>
      rw [List.cons_append, numbered, ih (k + 1), Nat.add_assoc, Nat.add_comm 1]
      rfl
    | note m => exact ih k

/-- After the requests `rs`, `r` gives `x` by the steps `ms`. -/
structure GoesBy {α : Type} (r : Reader α) (rs : List Request) (x : α) (ms : List Move) : Prop where
  ok : ∃ qs, numbered (texts rs).length qs = needs ms ∧
    ∀ rest, r (.after rs (taken ms ++ rest)) = .ok x (.after (rs ++ qs) rest)
  /-- Where the input ends within a step, what is asked for in front of it has been requested. -/
  cut : ∀ {part ns}, Cut ms part ns → ∃ s qs, r (.after rs part) = .error .truncated s ∧
    s.requests.toList = rs ++ qs ∧ numbered (texts rs).length qs = ns

def Follows {α : Type} (r : Reader α) (P : α → List Move → Prop) : Prop :=
  ∀ rs bytes x s', r (.after rs bytes) = .ok x s' →
    ∃ ms, P x ms ∧ GoesBy r rs x ms ∧ bytes = taken ms ++ s'.rest

variable {α β : Type} {r : Reader α} {k : α → Reader β}
variable {P : α → List Move → Prop} {Q : β → List Move → Prop}

/-- A step in which nothing is taken and nothing is asked for. -/
theorem goesBy_nil {rs : List Request} {x : α}
    (h : ∀ rest, r (.after rs rest) = .ok x (.after rs rest)) : GoesBy r rs x [] where
  ok := ⟨[], rfl, fun rest => by rw [List.append_nil]; exact h rest⟩
  cut h := by cases h

theorem GoesBy.bind {rs qs : List Request} {x : α} {y : β} {ms ms' : List Move}
    (hr : GoesBy r rs x ms) (hqs : numbered (texts rs).length qs = needs ms)
    (hok : ∀ rest, r (.after rs (taken ms ++ rest)) = .ok x (.after (rs ++ qs) rest))
    (hk : GoesBy (k x) (rs ++ qs) y ms') : GoesBy (r >>= k) rs y (ms ++ ms') := by
  obtain ⟨qs', hqs', hok'⟩ := hk.ok
  have hlength : (texts (rs ++ qs)).length = (texts rs).length + (texts qs).length := by
    rw [texts_append, List.length_append]
  refine ⟨⟨qs ++ qs', ?_, fun rest => ?_⟩, fun {part ns} h => ?_⟩
  · rw [numbered_append, ← hlength, hqs, hqs', needs_append]
  · rw [taken_append, List.append_assoc, ← List.append_assoc rs]
    exact (bind_of_ok (hok _)).trans (hok' rest)
  · rcases h.split with hcut | ⟨part', ns', hcut, rfl, rfl⟩
    · obtain ⟨s, qs, herror, hs, hns⟩ := hr.cut hcut
      exact ⟨s, qs, bind_of_error herror, hs, hns⟩
    · obtain ⟨s, qs'', herror, hs, hns⟩ := hk.cut hcut
      refine ⟨s, qs ++ qs'', (bind_of_ok (hok _)).trans herror, ?_, ?_⟩
      · rw [hs, List.append_assoc]
      · rw [numbered_append, ← hlength, hqs, hns]

theorem follows_pure {x : α} (hx : P x []) : Follows (pure x) P := by
  intro rs bytes y s' h
  cases h
  exact ⟨[], hx, goesBy_nil fun _ => rfl, rfl⟩

theorem follows_throw (e : Cause) : Follows (throw e : Reader α) P := by
  intro rs bytes x s' h
  cases h

theorem Follows.bind (hr : Follows r P)
    (hk : ∀ x ms, P x ms → Follows (k x) fun y ms' => Q y (ms ++ ms')) : Follows (r >>= k) Q := by
  intro rs bytes y s' hy
  cases hx : r (.after rs bytes) with
  | ok x s₁ =>
    rw [bind_of_ok hx] at hy
    obtain ⟨ms, hP, hgoes, hbytes⟩ := hr rs bytes x s₁ hx
    obtain ⟨qs, hqs, hok⟩ := hgoes.ok
    -- what comes next begins where the first step has ended
    have hs : s₁ = .after (rs ++ qs) s₁.rest := by
      rw [hbytes, hok] at hx
      exact (EStateM.Result.ok.inj hx).2.symm
    rw [hs] at hy
    obtain ⟨ms', hQ, hgoes', hrest⟩ := hk x ms hP _ _ y s' hy
    exact ⟨ms ++ ms', hQ, hgoes.bind hqs hok hgoes', by
      rw [taken_append, List.append_assoc, ← hrest]
      exact hbytes⟩
  | error e s₁ =>
    rw [bind_of_error hx] at hy
    cases hy

theorem Follows.imp {P' : α → List Move → Prop} (hr : Follows r P)
    (h : ∀ x ms, P x ms → P' x ms) : Follows r P' := by
  intro rs bytes x s' hx
  obtain ⟨ms, hP, hgoes⟩ := hr rs bytes x s' hx
  exact ⟨ms, h x ms hP, hgoes⟩

theorem Follows.map {g : α → β} (hr : Follows r P) (h : ∀ x ms, P x ms → Q (g x) ms) :
    Follows (do return g (← r)) Q := by
  refine hr.bind fun x ms hms => follows_pure ?_
  rw [List.append_nil]
  exact h x ms hms

/-- The same bytes may be taken in other steps where nothing is asked for. -/
theorem Follows.retake {P' : α → List Move → Prop} (hr : Follows r P)
    (h : ∀ x ms, P x ms → ∃ ms', P' x ms' ∧ taken ms' = taken ms ∧ needs ms' = [] ∧ needs ms = []) :
    Follows r P' := by
  intro rs bytes x s' hx
  obtain ⟨ms, hP, hgoes, hbytes⟩ := hr rs bytes x s' hx
  obtain ⟨ms', hP', htaken, hneeds', hneeds⟩ := h x ms hP
  refine ⟨ms', hP', ⟨?_, fun {part ns} hcut => ?_⟩, htaken ▸ hbytes⟩
  · rw [hneeds', htaken, ← hneeds]
    exact hgoes.ok
  · obtain ⟨missing, hne, hmissing⟩ := hcut.taken_eq
    obtain ⟨ns', hcut'⟩ := exists_cut hne (htaken ▸ hmissing)
    obtain rfl : ns = [] := List.prefix_nil.1 (hneeds' ▸ hcut.prefix_needs)
    obtain rfl : ns' = [] := List.prefix_nil.1 (hneeds ▸ hcut'.prefix_needs)
    exact hgoes.cut hcut'

theorem ofLittleEndian_lt (bytes : List UInt8) :
    ofLittleEndian bytes < 1 <<< (8 * bytes.length) := by
  induction bytes with
  | nil => decide
  | cons b bytes ih =>
    have hb : b.toNat < 256 := b.toNat_lt
    have hcons : ofLittleEndian (b :: bytes) = b.toNat + 256 * ofLittleEndian bytes := rfl
    have hshift : 1 <<< (8 * (bytes.length + 1)) = 256 * 1 <<< (8 * bytes.length) := by
      rw [Nat.one_shiftLeft, Nat.one_shiftLeft, Nat.mul_add, Nat.pow_add, Nat.mul_comm]
    rw [hcons, List.length_cons, hshift]
    omega

theorem littleEndian_ofLittleEndian (bytes : List UInt8) :
    littleEndian bytes.length (ofLittleEndian bytes) = bytes := by
  induction bytes with
  | nil => rfl
  | cons b bytes ih =>
    have hb : b.toNat < 256 := b.toNat_lt
    have hcons : ofLittleEndian (b :: bytes) = b.toNat + 256 * ofLittleEndian bytes := rfl
    have hhigh : (b.toNat + 256 * ofLittleEndian bytes) / 256 = ofLittleEndian bytes := by omega
    have hlow : UInt8.ofNat (b.toNat + 256 * ofLittleEndian bytes) = b := by
      apply UInt8.toNat_inj.1
      rw [UInt8.toNat_ofNat']
      omega
    rw [hcons, List.length_cons, littleEndian, hhigh, ih, hlow]

theorem bytes_of_length_lt {n : Nat} {s : Scan} (h : s.rest.length < n) :
    Reader.bytes n s = .error .truncated s := by
  unfold Reader.bytes
  split
  · rename_i a b ht
    obtain ⟨rfl, hrest⟩ := takeExactly_eq_some_iff.1 ht
    rw [hrest, List.length_append] at h
    omega
  · rfl

theorem follows_bytes (n : Nat) :
    Follows (Reader.bytes n) fun x ms => x.length = n ∧ ms = [.take x] := by
  intro rs bytes x s' h
  unfold Reader.bytes at h
  split at h
  · rename_i a rest ht
    cases h
    obtain ⟨hlength, rfl⟩ := takeExactly_eq_some_iff.1 ht
    have htaken : taken [.take x] = x := List.append_nil x
    refine ⟨[.take x], ⟨hlength, rfl⟩, ⟨⟨[], rfl, fun rest => ?_⟩, fun {part ns} hcut => ?_⟩, ?_⟩
    · rw [htaken, List.append_nil, Reader.bytes, Scan.after, ← hlength, takeExactly_append]
      rfl
    · obtain ⟨missing, hne, hmissing⟩ := hcut.taken_eq
      obtain rfl : ns = [] := List.prefix_nil.1 hcut.prefix_needs
      have hpos : 0 < missing.length := List.length_pos_iff.2 hne
      have hsum := congrArg List.length hmissing
      rw [htaken, List.length_append] at hsum
      exact ⟨_, [], bytes_of_length_lt (show part.length < n by omega), (List.append_nil rs).symm,
        rfl⟩
    · rw [htaken]
  · cases h

/-- A request takes no bytes, so no input ends within it. -/
theorem goesBy_of_taken_nil {rs qs : List Request} {x : α} {ms : List Move} (htaken : taken ms = [])
    (hqs : numbered (texts rs).length qs = needs ms)
    (h : ∀ rest, r (.after rs rest) = .ok x (.after (rs ++ qs) rest)) : GoesBy r rs x ms where
  ok := ⟨qs, hqs, fun rest => by rw [htaken]; exact h rest⟩
  cut hcut := by
    obtain ⟨missing, hne, hmissing⟩ := hcut.taken_eq
    rw [htaken, List.nil_eq, List.append_eq_nil_iff] at hmissing
    exact absurd hmissing.2 hne

theorem request_after {q : Request} (hq : texts [q] = []) (rs : List Request) (rest : List UInt8) :
    Reader.request q (.after rs rest) = .ok () (.after (rs ++ [q]) rest) := by
  change EStateM.Result.ok () (Scan.mk rest (rs.toArray.push q) (texts rs).length) = _
  rw [Scan.after, texts_append, hq, List.append_nil, List.push_toArray]

theorem follows_block (b : Block) (n : Nat) :
    Follows (Reader.request (.block b n)) fun _ ms => ms = [.ask (.block b n)] := by
  intro rs bytes x s' h
  have hafter := request_after (q := .block b n) rfl rs
  rw [hafter] at h
  cases h
  exact ⟨[.ask (.block b n)], rfl, goesBy_of_taken_nil rfl rfl hafter, rfl⟩

theorem follows_note (m : Message) : Follows (Reader.request (.note m)) fun _ ms => ms = [] := by
  intro rs bytes x s' h
  have hafter := request_after (q := .note m) rfl rs
  rw [hafter] at h
  cases h
  exact ⟨[], rfl, goesBy_of_taken_nil rfl rfl hafter, rfl⟩

theorem follows_text (content : List UInt8) :
    Follows (do
      Reader.request (.text content)
      let n := (← get).texts
      modify fun s => { s with texts := s.texts + 1 }
      return some (Reader.provisional n content)) fun s? ms =>
        ∃ s : Str, s? = some s ∧ s.bytes = content ∧ ms = [.ask (.text s)] := by
  intro rs bytes x s' h
  have hafter (rest : List UInt8) : Scan.mk rest (rs.toArray.push (.text content))
      ((texts rs).length + 1) = .after (rs ++ [.text content]) rest := by
    rw [Scan.after, texts_append, List.length_append, List.push_toArray]
    rfl
  have hneeds : numbered (texts rs).length [.text content] =
      needs [.ask (.text (Reader.provisional (texts rs).length content))] := rfl
  cases h
  refine ⟨_, ⟨_, rfl, rfl, rfl⟩, goesBy_of_taken_nil rfl hneeds fun rest => ?_, rfl⟩
  rw [← hafter]
  rfl

theorem follows_byte : Follows Reader.byte fun x ms => ms = [.take [x]] := by
  apply (follows_bytes 1).map
  rintro x _ ⟨hlength, rfl⟩
  obtain ⟨b, rfl⟩ := List.length_eq_one_iff.1 hlength
  rfl

theorem follows_flag : Follows Reader.flag Course.flag := by
  refine (follows_byte.retake fun x ms hms => ?_).map fun x ms hms => ⟨x, rfl, hms⟩
  subst hms
  exact ⟨[.flag x], rfl, rfl, rfl, rfl⟩

theorem follows_word (width : Nat) : Follows (Reader.word width) fun n ms =>
    n < 1 <<< (8 * width) ∧ ms = [.take (littleEndian width n)] := by
  apply (follows_bytes width).map
  rintro x _ ⟨rfl, rfl⟩
  exact ⟨ofLittleEndian_lt x, by rw [littleEndian_ofLittleEndian]⟩

theorem follows_int : Follows Reader.int Course.int := by
  apply (follows_word 4).map
  rintro n _ ⟨hn, rfl⟩
  have hword : (UInt32.ofNat n).toInt32.toUInt32.toNat = n := by
    change n % 2 ^ 32 = n
    exact Nat.mod_eq_of_lt hn
  rw [Course.int, hword]

theorem follows_field : Follows Reader.field Course.field := by
  refine follows_int.bind fun n ms hms => ?_
  split
  · exact follows_throw _
  · rename_i hn
    apply follows_pure
    rw [List.append_nil]
    exact ⟨Int32.not_lt.1 hn, hms⟩

theorem follows_count : Follows Reader.count fun n ms =>
    n ≤ maxCount ∧ ms = [.take (littleEndian 4 n)] := by
  apply follows_field.map
  rintro n _ ⟨hn, rfl⟩
  -- a word below the sign bit is its own number
  have hword : n.toUInt32.toNat = n.toInt.toNat := by
    have hint : n.toInt = n.toBitVec.toInt := rfl
    have hnat : n.toUInt32.toNat = n.toBitVec.toNat := rfl
    have hcond := n.toBitVec.toInt_eq_toNat_cond
    rw [Int32.le_iff_toInt_le] at hn
    have hzero : (0 : Int32).toInt = 0 := rfl
    split at hcond <;> omega
  exact ⟨by have := n.toInt_lt; simp only [maxCount]; omega, by rw [hword]⟩

theorem follows_string : Follows Reader.string Course.string := by
  refine (follows_word 8).bind ?_
  rintro size _ ⟨hsize, rfl⟩
  split
  · rename_i hzero
    subst hzero
    exact follows_pure .absent
  · rename_i hpos
    -- the last of the bytes is the terminator
    have hcontent : Follows (Reader.bytes size) fun x ms => ∃ terminator,
        size = x.dropLast.length + 1 ∧ ms = [.take x.dropLast, .terminator terminator] := by
      apply (follows_bytes size).retake
      rintro x _ ⟨rfl, rfl⟩
      obtain rfl | ⟨init, terminator, rfl⟩ := x.eq_nil_or_concat
      · exact absurd rfl hpos
      rw [List.concat_eq_append, List.length_append, List.dropLast_concat]
      exact ⟨_, ⟨terminator, rfl, rfl⟩, (List.append_nil _).symm, rfl, rfl⟩
    refine hcontent.bind ?_
    rintro x _ ⟨terminator, rfl, rfl⟩
    apply (follows_text x.dropLast).imp
    rintro _ _ ⟨s, rfl, hbytes, rfl⟩
    rw [← hbytes] at hsize ⊢
    exact .present terminator hsize

section List

variable {course : Course α}

theorem Follows.times (hr : Follows r course) (n : Nat) : Follows (r.times n) fun xs ms =>
    xs.length = n ∧ ∃ parts, List.Forall₂ course xs parts ∧ ms = parts.flatten := by
  induction n with
  | zero => exact follows_pure ⟨rfl, [], .nil, rfl⟩
  | succ n ih =>
    refine hr.bind fun x ms hms => ih.map ?_
    rintro xs _ ⟨rfl, parts, hparts, rfl⟩
    exact ⟨rfl, ms :: parts, .cons hms hparts, rfl⟩

theorem Follows.list (hr : Follows r course) (b : Block) :
    Follows (Reader.list b r) (Course.list b course) := by
  refine follows_count.bind ?_
  rintro n _ ⟨hn, rfl⟩
  refine (follows_block b n).bind ?_
  rintro _ _ rfl
  apply (hr.times n).imp
  rintro xs _ ⟨rfl, parts, hparts, rfl⟩
  exact ⟨hn, parts, hparts, rfl⟩

end List

theorem follows_constant : Follows Reader.constant Course.constant := by
  refine follows_byte.bind ?_
  rintro tag _ rfl
  split
  · rename_i htag
    obtain rfl : tag = 0 := UInt8.toNat_inj.1 htag
    exact follows_pure .nil
  · rename_i htag
    obtain rfl : tag = 1 := UInt8.toNat_inj.1 htag
    exact follows_flag.map fun x ms hms => .boolean hms
  · rename_i htag
    obtain rfl : tag = 3 := UInt8.toNat_inj.1 htag
    apply (follows_word 8).map
    rintro n _ ⟨hn, rfl⟩
    have hbits : (UInt64.ofNat n).toNat = n := by
      rw [UInt64.toNat_ofNat']
      exact Nat.mod_eq_of_lt hn
    have hcourse := Course.constant.number ⟨UInt64.ofNat n⟩
    rw [hbits] at hcourse
    exact hcourse
  · rename_i htag
    obtain rfl : tag = 4 := UInt8.toNat_inj.1 htag
    refine follows_string.bind fun s? ms hms => ?_
    split
    · apply follows_pure
      rw [List.append_nil]
      exact .string hms
    · exact follows_throw _
  · exact follows_throw _

theorem follows_instruction : Follows Reader.instruction Course.instruction := by
  apply (follows_word 4).map
  rintro n _ ⟨hn, rfl⟩
  have hword : (UInt32.ofNat n).toNat = n := by
    rw [UInt32.toNat_ofNat']
    exact Nat.mod_eq_of_lt hn
  rw [Course.instruction, hword]

theorem follows_upvalue :
    Follows Reader.upvalue fun u ms => u.name = none ∧ Course.upvalue u ms := by
  refine follows_flag.bind fun isLocal ms hms => follows_byte.map ?_
  rintro index _ rfl
  exact ⟨rfl, ms, hms, rfl⟩

theorem follows_localVar : Follows Reader.localVar Course.localVar := by
  refine follows_string.bind fun name a ha => ?_
  refine follows_field.bind fun startPc b hb => ?_
  exact follows_field.map fun endPc c hc => ⟨a, b, c, ha, hb, hc, rfl⟩

theorem follows_accept (name : String) (f : Body) (childCount : Nat) :
    Follows (Reader.accept name f childCount) fun _ ms => ms = [] := by
  refine (follows_note _).bind ?_
  rintro _ _ rfl
  split
  · exact follows_pure rfl
  · exact (follows_note _).bind fun _ _ _ => follows_throw _

theorem unnamed_nameUpvalues (us : List Upvalue) (ns : List (Option Str)) :
    (Reader.nameUpvalues us ns).map Upvalue.unnamed = us.map Upvalue.unnamed := by
  induction us generalizing ns with
  | nil => cases ns <;> rfl
  | cons u us ih =>
    cases ns with
    | nil => rfl
    | cons n ns =>
      rw [Reader.nameUpvalues, List.map_cons, ih]
      rfl

/-- The first upvalues get the names, and the others are left without one. -/
theorem name_nameUpvalues {us : List Upvalue} {ns : List (Option Str)}
    (hus : ∀ u ∈ us, u.name = none) (hlength : ns.length ≤ us.length) :
    (Reader.nameUpvalues us ns).map Upvalue.name =
      ns ++ List.replicate (us.length - ns.length) none := by
  induction us generalizing ns with
  | nil =>
    cases ns with
    | nil => rfl
    | cons n ns => cases hlength
  | cons u us ih =>
    cases ns with
    | nil => exact List.map_eq_replicate_iff.2 hus
    | cons n ns =>
      rw [Reader.nameUpvalues, List.map_cons, ih (fun u hu => hus u (List.mem_cons_of_mem _ hu))
        (Nat.le_of_succ_le_succ hlength), List.length_cons, List.length_cons, Nat.succ_sub_succ]
      rfl

theorem follows_upvalueNames {us : List Upvalue} (hus : ∀ u ∈ us, u.name = none) :
    Follows (Reader.upvalueNames us) fun vs ms =>
      vs.map Upvalue.unnamed = us ∧ Course.names vs ms := by
  have hcount : Follows Reader.count fun n ms => n ≤ maxCount ∧ ms = [.names n us.length] := by
    apply follows_count.retake
    rintro n _ ⟨hn, rfl⟩
    exact ⟨_, ⟨hn, rfl⟩, rfl, rfl, rfl⟩
  refine hcount.bind ?_
  rintro n _ ⟨hn, rfl⟩
  split
  · exact follows_throw _
  rename_i hle
  apply (follows_string.times n).map
  rintro ns _ ⟨rfl, parts, hparts, rfl⟩
  have hsame := unnamed_nameUpvalues us ns
  have hlength := congrArg List.length hsame
  rw [List.length_map, List.length_map] at hlength
  refine ⟨?_, ns, _, parts, hn, hparts, name_nameUpvalues hus (Nat.not_lt.1 hle), ?_⟩
  · have hunnamed : ∀ u ∈ us, u.unnamed = u := fun u hu => Upvalue.unnamed_of_name (hus u hu)
    rw [hsame, List.map_congr_left hunnamed, List.map_id']
  · rw [hlength]
    rfl

theorem follows_head : Follows Reader.head Course.head := by
  refine (follows_block _ _).bind ?_
  rintro _ _ rfl
  refine follows_field.bind fun lineDefined line hline => ?_
  refine follows_field.bind fun lastLineDefined last hlast => ?_
  refine follows_byte.bind fun paramCount _ hparams => ?_
  refine follows_flag.bind fun isVararg vararg hvararg => ?_
  refine follows_byte.bind fun maxStack _ hstack => ?_
  refine (follows_instruction.list _).bind fun code words hcode => ?_
  refine (follows_constant.list _).map fun constants values hconstants => ?_
  subst hparams hstack
  exact .mk hline hlast hvararg hcode hconstants

/-- Names do not matter to the steps by which upvalues are read. -/
theorem list_upvalue_of_unnamed {us vs : List Upvalue} {ms : List Move}
    (hsame : vs.map Upvalue.unnamed = us) (h : Course.list .upvalues
      (fun u ms => u.name = none ∧ Course.upvalue u ms) us ms) :
    Course.list .upvalues Course.upvalue vs ms := by
  obtain ⟨hcount, parts, hparts, rfl⟩ := h
  subst hsame
  rw [List.length_map] at hcount ⊢
  rw [List.forall₂_map_left_iff] at hparts
  exact ⟨hcount, parts, hparts.imp fun u ms hu => hu.2, rfl⟩

theorem follows_rest (f : Body) : Follows (Reader.rest f) fun g ms =>
    (∀ a, Course.head f a → Course.head g a) ∧ Course.rest g ms := by
  refine (follows_upvalue.list _).bind fun unnamed flags hflags => ?_
  have hnone : ∀ u ∈ unnamed, u.name = none := by
    obtain ⟨-, _, hparts, -⟩ := hflags
    exact ((List.forall₂_and_left unnamed _).1 hparts).1
  refine follows_string.bind fun source text hsource => ?_
  refine (follows_int.list _).bind fun lines numbers hlines => ?_
  refine (follows_localVar.list _).bind fun locals vars hlocals => ?_
  apply (follows_upvalueNames hnone).map
  rintro upvalues names ⟨hsame, hnames⟩
  refine ⟨fun a ⟨hline, hlast, hvararg, hcode, hconstants⟩ =>
    .mk hline hlast hvararg hcode hconstants, ?_⟩
  exact .mk (list_upvalue_of_unnamed hsame hflags) hsource hlines hlocals hnames

/-- A function record gives a tree by the steps that are due to it. -/
theorem follows_function (name : String) (levels : Nat) :
    Follows (Reader.function name levels) Course.function := by
  induction levels with
  | zero => exact follows_throw _
  | succ levels ih =>
    rw [Reader.function_succ]
    refine follows_head.bind fun f a ha => ?_
    refine (ih.list _).bind fun children b hb => ?_
    refine (follows_rest f).bind fun g c hc => ?_
    refine (follows_accept name g _).bind ?_
    rintro _ _ rfl
    apply follows_pure
    rw [Course.function_mk_iff]
    exact ⟨a, b, c, hc.1 a ha, hb, hc.2, by simp only [List.append_nil]⟩

theorem follows_chunk (name : String) : Follows (Reader.chunk name) Course.chunk := by
  refine (follows_bytes header.length).bind ?_
  rintro h _ ⟨-, rfl⟩
  split
  · exact follows_throw _
  rename_i hfault
  have hheader : h = header := by
    by_contra hne
    rw [headerFault?, if_neg hne] at hfault
    split_ifs at hfault
  subst hheader
  exact (follows_function name _).imp fun p record hrecord => ⟨record, hrecord, rfl⟩

end LuaData.Chunk
