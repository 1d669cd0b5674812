import LuaData.Proofs.Chunk.Following
import LuaData.Proofs.Chunk.Prefix
import LuaData.Proofs.Chunk.RoundTrip
import LuaData.Proofs.Chunk.Soundness

namespace LuaData.Chunk

section Unique

variable {α : Type} {r : Reader α} {P Q : (Str → Str) → α → Prop} {a b s t : List UInt8} {n m : Nat}

/-- A reader that is through cannot take more or less of the same bytes. -/
theorem Reads.unique (h : Reads r a n P) (h' : Reads r b m Q) (he : a ++ s = b ++ t) :
    a = b ∧ s = t ∧ ∃ x, P Str.anonymous x ∧ Q Str.anonymous x := by
  obtain ⟨x, qs, hx, -, hP⟩ := h [] s
  obtain ⟨y, qs', hy, -, hQ⟩ := h' [] t
  rw [he, hy] at hx
  obtain ⟨rfl, hscan⟩ := EStateM.Result.ok.inj hx
  obtain rfl : t = s := congrArg Scan.rest hscan
  exact ⟨List.append_cancel_right he, rfl, y, hP _ (resolves_anonymous _),
    hQ _ (resolves_anonymous _)⟩

/-- No bytes that start with a form of `x` start with a form of anything else, nor with another form
of `x`. -/
def Form.Unambiguous (form : Form α) (x : α) : Prop :=
  ∀ {y a b s t}, form x a → form y b → a ++ s = b ++ t → x = y ∧ a = b

variable {form : Form α} {xs ys : List α} {records records' : List (List UInt8)}

theorem Form.Unambiguous.flatten (h : ∀ x ∈ xs, form.Unambiguous x)
    (hxs : List.Forall₂ form xs records) (hys : List.Forall₂ form ys records')
    (hlength : xs.length = ys.length) (he : records.flatten ++ s = records'.flatten ++ t) :
    xs = ys ∧ records = records' := by
  induction hxs generalizing ys records' with
  | nil =>
    cases hys with
    | nil => exact ⟨rfl, rfl⟩
    | cons hy hys => cases hlength
  | cons hx _ ih =>
    cases hys with
    | nil => cases hlength
    | cons hy hys =>
      rw [List.flatten_cons, List.flatten_cons, List.append_assoc, List.append_assoc] at he
      obtain ⟨rfl, rfl⟩ := h _ List.mem_cons_self hx hy he
      obtain ⟨rfl, rfl⟩ := ih (fun x hx => h x (List.mem_cons_of_mem _ hx)) hys
        (Nat.succ.inj hlength) (List.append_cancel_left he)
      exact ⟨rfl, rfl⟩

theorem Form.Unambiguous.list (h : ∀ x ∈ xs, form.Unambiguous x) :
    (Form.list form).Unambiguous xs := by
  rintro ys a b s t ⟨hn, records, hxs, rfl⟩ ⟨hm, records', hys, rfl⟩ he
  rw [List.append_assoc, List.append_assoc] at he
  obtain ⟨-, hrest, n, rfl, hlength⟩ := (reads_count hn).unique (reads_count hm) he
  obtain ⟨rfl, rfl⟩ := Form.Unambiguous.flatten h hxs hys hlength hrest
  exact ⟨rfl, rfl⟩

end Unique

/-- The head, the records of the nested functions and the rest are each read in one way only. -/
theorem unambiguous_function (p : Prototype) : Form.Unambiguous Form.function p := by
  induction p with
  | mk body children ih =>
    intro q a b s t ha hb he
    obtain ⟨body', children'⟩ := q
    obtain ⟨a₁, a₂, a₃, h₁, h₂, h₃, rfl⟩ := Form.function_mk_iff.1 ha
    obtain ⟨b₁, b₂, b₃, h₁', h₂', h₃', rfl⟩ := Form.function_mk_iff.1 hb
    simp only [List.append_assoc] at he
    obtain ⟨rfl, he, x, hx, hx'⟩ := (reads_head h₁).unique (reads_head h₁') he
    obtain ⟨rfl, rfl⟩ := Form.Unambiguous.list ih h₂ h₂' he
    obtain ⟨rfl, -, y, hy, hy'⟩ :=
      (reads_rest h₃ x).unique (reads_rest h₃' x) (List.append_cancel_left he)
    obtain rfl : body = body' := (hy hx).symm.trans (hy' hx')
    exact ⟨rfl, rfl⟩

theorem unambiguous_chunk (p : Prototype) : Form.Unambiguous Form.chunk p := by
  rintro q _ _ s t ⟨a, ha, rfl⟩ ⟨b, hb, rfl⟩ he
  rw [List.append_assoc, List.append_assoc] at he
  obtain ⟨rfl, rfl⟩ := unambiguous_function p ha hb (List.append_cancel_left he)
  exact ⟨rfl, rfl⟩

section Load

variable {c : Collector} {name : String} {bytes : List UInt8} {p : Prototype}

def Acceptable (p : Prototype) : Prop :=
  ∀ d q, Prototype.Occurs q d p → d ≤ maxDepth ∧ q.fault? = none

theorem acceptable_iff :
    Acceptable p ↔ p.Shallow (maxDepth + 1) ∧ p.firstFault? = none := by
  rw [Prototype.firstFault?_eq_none_iff]
  exact ⟨fun h => ⟨fun d q hq => Nat.lt_succ_of_le (h d q hq).1, fun d q hq => (h d q hq).2⟩,
    fun h d q hq => ⟨Nat.le_of_lt_succ (h.1 d q hq), h.2 d q hq⟩⟩

theorem acceptable_mapBody_iff {g : Body → Body} (hg : ∀ b n, (g b).fault? n = b.fault? n) :
    Acceptable (p.mapBody g) ↔ Acceptable p := by
  rw [acceptable_iff, acceptable_iff, Prototype.shallow_mapBody_iff,
    Prototype.firstFault?_mapBody hg]

theorem acceptable_mapStr_iff {g : Str → Str} : Acceptable (p.mapStr g) ↔ Acceptable p := by
  rw [Prototype.mapStr_eq_mapBody]
  exact acceptable_mapBody_iff fun b => b.fault?_mapStr g

/-- What starts with an acceptable chunk is loaded unless memory is refused, and it is not if there
is room for the tree. -/
theorem load_of_form {a : List UInt8} (ha : a <+: bytes) (hform : Form.chunk p a)
    (hp : Acceptable p) :
    (c.HasRoom p.memory → (load c name bytes).1 ≠ .error .outOfMemory) ∧
    ((load c name bytes).1 ≠ .error .outOfMemory →
      ∃ f, (load c name bytes).1 = .ok f ∧ f.prototype.mapStr Str.anonymous = p) := by
  obtain ⟨tail, rfl⟩ := ha
  obtain ⟨hdepth, hfault⟩ := acceptable_iff.1 hp
  have hload := loadNamed_of_reads (reads_form (displayName name) hform hdepth hfault) c
  -- what follows the chunk does not matter, as the load is not stopped by the end of input
  have hwhole : ¬Truncated c name a := by
    intro htruncated
    have hrejected : (load c name a).1 ≠ .error .outOfMemory := by
      rw [htruncated]
      simp
    obtain ⟨f, hf, -⟩ := hload.2 hrejected
    rw [← load, htruncated] at hf
    cases hf
  rw [load_append hwhole]
  exact hload

theorem form_of_scan {q : Prototype} {s : Scan} (hscan : scan name bytes = .ok q s) :
    ∃ a, a <+: bytes ∧ Form.chunk (q.mapStr Str.anonymous) a ∧
      Acceptable (q.mapStr Str.anonymous) := by
  obtain ⟨ms, hms, -, hbytes⟩ := follows_chunk name [] bytes q s hscan
  have hsound := (yields_chunk _ _ q s hscan).mapStr Str.anonymous
  exact ⟨taken ms, ⟨s.rest, hbytes.symm⟩, chunk_form hms, fun d r hr =>
    ⟨Nat.le_of_lt_succ (hsound d r hr).1, (hsound d r hr).2.1⟩⟩

/-- What is loaded is what reading gives, but for the identity of strings. -/
theorem mapStr_of_load {f : Closure} {q : Prototype} {s : Scan}
    (hf : (load c name bytes).1 = .ok f) (hscan : scan (displayName name) bytes = .ok q s) :
    f.prototype.mapStr Str.anonymous = q.mapStr Str.anonymous := by
  obtain ⟨a, ha, hform, hq⟩ := form_of_scan hscan
  have hgranted : (load c name bytes).1 ≠ .error .outOfMemory := by
    rw [hf]
    simp
  obtain ⟨f', hf', he⟩ := (load_of_form ha hform hq).2 hgranted
  rw [hf] at hf'
  cases hf'
  exact he

theorem form_of_load {f : Closure} (hf : (load c name bytes).1 = .ok f) :
    ∃ a, a <+: bytes ∧ Form.chunk (f.prototype.mapStr Str.anonymous) a ∧
      Acceptable f.prototype := by
  obtain ⟨q, s, hscan⟩ := exists_scan_of_load hf
  obtain ⟨a, ha, hform, hq⟩ := form_of_scan hscan
  rw [← mapStr_of_load hf hscan] at hform hq
  exact ⟨a, ha, hform, acceptable_mapStr_iff.1 hq⟩

end Load

/-- Unless memory is refused, an input is loaded if and only if it starts with an acceptable chunk,
and what is loaded is the tree that this chunk stands for. Memory is not refused if there is room
for that tree. There is only one chunk that the input starts with, and only one tree for it. -/
theorem load_iff_form (c : Collector) (name : String) (bytes : List UInt8) :
    ((load c name bytes).1 ≠ .error .outOfMemory → ∀ p,
      (∃ f, (load c name bytes).1 = .ok f ∧ f.prototype.mapStr Str.anonymous = p) ↔
        ∃ a, a <+: bytes ∧ Form.chunk p a ∧ Acceptable p) ∧
    (∀ p a, a <+: bytes → Form.chunk p a → Acceptable p → c.HasRoom p.memory →
      (load c name bytes).1 ≠ .error .outOfMemory) ∧
    ∀ p q a b, a <+: bytes → b <+: bytes → Form.chunk p a → Form.chunk q b → p = q ∧ a = b := by
  refine ⟨fun hne p => ⟨?_, ?_⟩, fun p a ha hform hp => (load_of_form ha hform hp).1, ?_⟩
  · rintro ⟨f, hf, rfl⟩
    rw [acceptable_mapStr_iff]
    exact form_of_load hf
  · rintro ⟨a, ha, hform, hp⟩
    exact (load_of_form ha hform hp).2 hne
  · rintro p q a b ⟨s, hs⟩ ⟨t, ht⟩ ha hb
    exact unambiguous_chunk p ha hb (hs.trans ht.symm)

end LuaData.Chunk
