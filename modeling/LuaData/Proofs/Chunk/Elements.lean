import LuaData.Proofs.Chunk.Grammar
import LuaData.Proofs.Chunk.Reading
import LuaData.Proofs.Prototype

namespace LuaData.Chunk

open Value

variable {bytes : List UInt8}

theorem reads_bytes (bytes : List UInt8) {n : Nat} (hn : bytes.length = n) :
    Reads (Reader.bytes n) bytes 0 fun _ x => x = bytes := by
  intro rs rest
  refine ⟨bytes, [], ?_, Nat.le_refl 0, fun _ _ => rfl⟩
  subst hn
  rw [Reader.bytes, Scan.after, takeExactly_append, List.append_nil]
  rfl

theorem reads_byte (b : UInt8) : Reads Reader.byte [b] 0 fun _ x => x = b := by
  apply (reads_bytes [b] rfl).map
  intro _ x hx
  rw [hx]
  rfl

theorem reads_flag {b : Bool} (h : Form.flag b bytes) :
    Reads Reader.flag bytes 0 fun _ x => x = b := by
  obtain ⟨x, rfl, rfl⟩ := h
  apply (reads_byte x).map
  intro _ y hy
  rw [hy]

theorem reads_word (width : Nat) {n : Nat} (hn : n < 1 <<< (8 * width)) :
    Reads (Reader.word width) (littleEndian width n) 0 fun _ x => x = n := by
  apply (reads_bytes _ (length_littleEndian width n)).map
  intro _ x hx
  rw [hx, ofLittleEndian_littleEndian, Nat.mod_eq_of_lt hn]

theorem reads_int {n : Int32} (h : Form.int n bytes) :
    Reads Reader.int bytes 0 fun _ x => x = n := by
  obtain rfl := h
  apply (reads_word 4 n.toUInt32.toNat_lt).map
  intro _ x hx
  rw [hx, UInt32.ofNat_toNat]
  rfl

theorem reads_field {n : Int32} (h : Form.field n bytes) :
    Reads Reader.field bytes 0 fun _ x => x = n := by
  apply (reads_int h.2).bind_last
  intro x hx
  rw [if_neg (hx ▸ Int32.not_lt.2 h.1)]
  exact reads_pure fun _ h => h

/-- A count is a field. -/
theorem toInt_ofNat_of_le {n : Nat} (hn : n ≤ maxCount) : (Int32.ofNat n).toInt = n :=
  Int32.toInt_ofNat_of_lt (Nat.lt_of_le_of_lt hn (by decide))

theorem Form.field_count {n : Nat} (hn : n ≤ maxCount) :
    Form.field (Int32.ofNat n) (littleEndian 4 n) := by
  constructor
  · rw [Int32.le_iff_toInt_le, toInt_ofNat_of_le hn]
    exact Int.natCast_nonneg n
  · have hlt : n < 2147483648 := Nat.lt_of_le_of_lt hn (by decide)
    have hword : (Int32.ofNat n).toUInt32.toNat = n := by
      change n % 2 ^ 32 = n
      omega
    rw [Form.int, hword]

theorem reads_count {n : Nat} (hn : n ≤ maxCount) :
    Reads Reader.count (littleEndian 4 n) 0 fun _ x => x = n := by
  apply (reads_field (Form.field_count hn)).map
  intro _ x hx
  rw [hx, toInt_ofNat_of_le hn]
  rfl

theorem reads_request {q : Request} (hq : texts [q] = []) :
    Reads (Reader.request q) [] q.cost fun _ _ => True := by
  intro rs rest
  refine ⟨(), [q], ?_, Nat.le_refl _, fun _ _ => trivial⟩
  change EStateM.Result.ok () (Scan.mk rest (rs.toArray.push q) (texts rs).length) = _
  rw [Scan.after, texts_append, hq, List.append_nil, List.push_toArray]

theorem reads_block (b : Block) (n : Nat) :
    Reads (Reader.request (.block b n)) [] (b.bytes n) fun _ _ => True := reads_request rfl

theorem reads_note (m : Message) : Reads (Reader.request (.note m)) [] 0 fun _ _ => True :=
  reads_request rfl

theorem reads_text (content : List UInt8) :
    Reads (do
      Reader.request (.text content)
      let n := (← get).texts
      modify fun s => { s with texts := s.texts + 1 }
      return some (Reader.provisional n content)) [] (Str.ofContent content).memory
      fun f x => x.map f = some (.ofContent content) := by
  intro rs rest
  refine ⟨some (Reader.provisional (texts rs).length content), [.text content], ?_,
    Nat.le_refl _, ?_⟩
  · change EStateM.Result.ok (some (Reader.provisional (texts rs).length content))
      (Scan.mk rest (rs.toArray.push (.text content)) ((texts rs).length + 1)) = _
    rw [Scan.after, texts_append, List.length_append, List.push_toArray]
    rfl
  · intro f hf
    rw [Option.map_some, hf _ content]
    rw [texts_append, List.getElem?_append_right (Nat.le_refl _), Nat.sub_self]
    rfl

theorem reads_string {s : Option Str} (h : Form.string s bytes) :
    Reads Reader.string bytes (total Str.memory s.toList) fun f x => x.map f = s := by
  unfold Reader.string
  cases h with
  | absent =>
    apply (reads_word 8 (by decide)).bind_last
    intro size hsize
    rw [if_pos hsize]
    exact reads_pure fun _ _ => rfl
  | @present content terminator hlt =>
    apply (reads_word 8 hlt).bind_free
    intro size hsize
    subst hsize
    rw [if_neg (Nat.succ_ne_zero _)]
    -- the last byte is dropped again
    rw [← List.append_nil (content ++ [terminator])]
    apply (reads_bytes (content ++ [terminator]) List.length_append).bind_free
    intro taken htaken
    rw [htaken, List.dropLast_concat]
    exact (reads_text content).imp fun f x hx _ _ => hx

section List

variable {α γ : Type} {r : Reader α} {form : Form γ} {need : γ → Nat}
variable {g : (Str → Str) → α → γ} {xs : List γ} {records : List (List UInt8)}
variable {ε : Type} {fault : γ → Option ε} {cause : ε → Cause} {e : ε}

theorem Reads.times (hrecords : List.Forall₂ form xs records)
    (h : ∀ x ∈ xs, ∀ a, form x a → Reads r a (need x) fun f y => g f y = x) :
    Reads (r.times xs.length) records.flatten (total need xs) fun f ys => ys.map (g f) = xs := by
  induction hrecords with
  | nil => exact reads_pure fun _ => rfl
  | cons hx _ ih =>
    apply (h _ List.mem_cons_self _ hx).bind
    intro y hy
    apply (ih fun x hx => h x (List.mem_cons_of_mem _ hx)).map
    intro f ys hys hy
    rw [List.map_cons, hy, hys]

/-- The first element that fails decides. -/
theorem fails_times (hrecords : List.Forall₂ form xs records)
    (hr : ∀ x ∈ xs, ∀ a, form x a → fault x = none → Reads r a (need x) fun f y => g f y = x)
    (hf : ∀ x ∈ xs, ∀ a, form x a → ∀ e, fault x = some e → Fails r a (need x) (cause e))
    (he : xs.findSome? fault = some e) :
    Fails (r.times xs.length) records.flatten (total need xs) (cause e) := by
  induction hrecords with
  | nil => cases he
  | @cons x a xs _ hform _ ih =>
    rw [List.findSome?_cons] at he
    cases hx : fault x with
    | some e' =>
      rw [hx] at he
      cases he
      exact (hf x List.mem_cons_self a hform e hx).bind.mono (Nat.le_add_right _ _)
    | none =>
      rw [hx] at he
      apply (hr x List.mem_cons_self a hform hx).bind_fails
      intro y hy
      apply Fails.map
      exact ih (fun x hx => hr x (List.mem_cons_of_mem _ hx))
        (fun x hx => hf x (List.mem_cons_of_mem _ hx)) he

theorem Reads.list (b : Block) (hform : Form.list form xs bytes)
    (h : ∀ x ∈ xs, ∀ a, form x a → Reads r a (need x) fun f y => g f y = x) :
    Reads (Reader.list b r) bytes (b.bytes xs.length + total need xs)
      fun f ys => ys.map (g f) = xs := by
  obtain ⟨hn, records, hrecords, rfl⟩ := hform
  apply (reads_count hn).bind_free
  intro n hn
  subst hn
  apply (reads_block b _).bind_nil
  intro _ _
  exact (Reads.times hrecords h).imp fun _ _ h _ _ => h

theorem fails_list (b : Block) (hform : Form.list form xs bytes)
    (hr : ∀ x ∈ xs, ∀ a, form x a → fault x = none → Reads r a (need x) fun f y => g f y = x)
    (hf : ∀ x ∈ xs, ∀ a, form x a → ∀ e, fault x = some e → Fails r a (need x) (cause e))
    (he : xs.findSome? fault = some e) :
    Fails (Reader.list b r) bytes (b.bytes xs.length + total need xs) (cause e) := by
  obtain ⟨hn, records, hrecords, rfl⟩ := hform
  apply (reads_count hn).bind_free_fails
  intro n hn
  subst hn
  apply (reads_block b _).bind_fails
  intro _ _
  exact fails_times hrecords hr hf he

/-- Elements without strings. -/
theorem Reads.list_free {r : Reader γ} (b : Block) (hform : Form.list form xs bytes)
    (h : ∀ x ∈ xs, ∀ a, form x a → Reads r a 0 fun _ y => y = x) :
    Reads (Reader.list b r) bytes (b.bytes xs.length) fun _ ys => ys = xs := by
  have hlist := Reads.list (g := fun _ => id) b hform h
  rw [total_zero] at hlist
  exact hlist.imp fun _ ys hys => (List.map_id ys).symm.trans hys

end List

theorem reads_constant {k : Value} (h : Form.constant k bytes) :
    Reads Reader.constant bytes (total Str.memory k.string?.toList)
      fun f x => x.mapStr f = k := by
  unfold Reader.constant
  cases h with
  | nil =>
    apply (reads_byte 0).bind_last
    intro tag htag
    rw [htag]
    exact reads_pure fun _ _ => rfl
  | @boolean b a h =>
    change Reads _ ([1] ++ a) _ _
    apply (reads_byte 1).bind_free
    intro tag htag
    rw [htag]
    apply (reads_flag h).map
    intro f x hx _
    rw [hx]
    rfl
  | number x =>
    change Reads _ ([3] ++ littleEndian 8 x.bits.toNat) _ _
    apply (reads_byte 3).bind_free
    intro tag htag
    rw [htag]
    apply (reads_word 8 x.bits.toNat_lt).map
    intro f y hy _
    rw [hy, UInt64.ofNat_toNat]
    rfl
  | @string s a h =>
    change Reads _ ([4] ++ a) _ _
    apply (reads_byte 4).bind_free
    intro tag htag
    rw [htag]
    apply (reads_string h).bind_last
    intro t ht
    cases t with
    | none => cases ht
    | some t =>
      apply reads_pure
      intro f ht _
      rw [mapStr, Option.some.inj ht]

theorem reads_instruction {i : Instruction} (h : Form.instruction i bytes) :
    Reads Reader.instruction bytes 0 fun _ x => x = i := by
  obtain rfl := h
  apply (reads_word 4 i.word.toNat_lt).map
  intro f x hx
  rw [hx, UInt32.ofNat_toNat]

theorem reads_upvalue {u : Upvalue} (h : Form.upvalue u bytes) :
    Reads Reader.upvalue bytes 0 fun _ x => x = u := by
  obtain ⟨isLocal, index, name⟩ := u
  obtain ⟨rfl, a, ha, rfl⟩ := h
  apply (reads_flag ha).bind_free
  intro x hx
  apply (reads_byte index).map
  intro f y hy _
  rw [hx, hy]

theorem reads_localVar {l : LocalVar} (h : Form.localVar l bytes) :
    Reads Reader.localVar bytes (total Str.memory l.name.toList) fun f x => x.mapStr f = l := by
  obtain ⟨a, b, c, ha, hb, hc, rfl⟩ := h
  change Reads _ _ (total Str.memory l.name.toList + 0) _
  apply (reads_string ha).bind
  intro name _
  apply (reads_field hb).bind_free
  intro startPc hstart
  apply (reads_field hc).map
  intro f endPc hend _ hname
  rw [hstart, hend, LocalVar.mapStr, hname]

end LuaData.Chunk
