import LuaData.Proofs.Table.Blocks
import LuaData.Proofs.Table.Looking

namespace LuaData.Table

variable {h : SeededHash} {s : History} {t : Table} {p : Nat → Bool} {i j n : Nat}

/-- Halving between `i` and `j` ends at `n`, if those are present for which `p` holds. -/
inductive Halving (p : Nat → Bool) : Nat → Nat → Nat → Prop
  | done {i j : Nat} (hle : j ≤ i + 1) : Halving p i j i
  | upper {i j n : Nat} (hlt : i + 1 < j) (hm : p ((i + j) / 2) = true)
      (hh : Halving p ((i + j) / 2) j n) : Halving p i j n
  | lower {i j n : Nat} (hlt : i + 1 < j) (hm : p ((i + j) / 2) = false)
      (hh : Halving p i ((i + j) / 2) n) : Halving p i j n

inductive Striding (p : Nat → Bool) : Nat → Nat → Prop
  | done {i : Nat} (hi : p i = false) : Striding p i (i - 1)
  | next {i n : Nat} (hi : p i = true) (hs : Striding p (i + 1) n) : Striding p i n

inductive Doubling (p : Nat → Bool) : Nat → Nat → Nat → Prop
  | halve {i j n : Nat} (hj : p j = false) (hh : Halving p i j n) : Doubling p i j n
  | stride {i j n : Nat} (hj : p j = true) (hlimit : probeLimit < 2 * j) (hs : Striding p 1 n) :
      Doubling p i j n
  | double {i j n : Nat} (hj : p j = true) (hlimit : 2 * j ≤ probeLimit)
      (hd : Doubling p j (2 * j) n) : Doubling p i j n

def held (t : Table) (n : Nat) : Bool := !(t.array.getD (n - 1) .nil).isNil

def holdsInt (h : StringHash) (t : Table) (n : Nat) : Bool := t.present h (.integer n)

/-- The search for a border ends at `n`: within the array part if its last cell holds no value, else
at its end if there is no other part, else beyond it. -/
inductive Search (h : StringHash) (t : Table) : Nat → Prop
  | within {n : Nat} (hsize : 0 < t.array.size) (hlast : t.held t.array.size = false)
      (hh : Halving t.held 0 t.array.size n) : Search h t n
  | atEnd (hlast : 0 < t.array.size → t.held t.array.size = true) (hempty : t.slots.size = 0) :
      Search h t t.array.size
  | beyond {n : Nat} (hlast : 0 < t.array.size → t.held t.array.size = true)
      (hslots : t.slots.size ≠ 0)
      (hd : Doubling (t.holdsInt h) t.array.size (t.array.size + 1) n) : Search h t n

/-- Zero, or one for which `p` holds, before one for which it does not. -/
def Border (p : Nat → Bool) (n : Nat) : Prop := (n = 0 ∨ p n = true) ∧ p (n + 1) = false

theorem Halving.border (hh : Halving p i j n) (hij : i < j) (hi : i = 0 ∨ p i = true)
    (hj : p j = false) : Border p n ∧ n < j := by
  induction hh with
  | @done i j hle =>
    obtain rfl : j = i + 1 := by omega
    exact ⟨⟨hi, hj⟩, hij⟩
  | upper hlt hm hh ih => exact ih (by omega) (.inr hm) hj
  | lower hlt hm hh ih =>
    obtain ⟨hborder, hn⟩ := ih (by omega) hi hm
    exact ⟨hborder, by omega⟩

theorem Striding.border (hs : Striding p i n) (hpos : 0 < i) (hi : i - 1 = 0 ∨ p (i - 1) = true) :
    Border p n := by
  induction hs with
  | done hdone =>
    refine ⟨hi, ?_⟩
    rwa [Nat.sub_add_cancel hpos]
  | next hnext hs ih => exact ih (Nat.succ_pos _) (.inr hnext)

theorem Doubling.border (hd : Doubling p i j n) (hij : i < j) (hi : i = 0 ∨ p i = true) :
    Border p n := by
  induction hd with
  | halve hj hh => exact (hh.border hij hi hj).1
  | stride hj hlimit hs => exact hs.border Nat.one_pos (.inl rfl)
  | double hj hlimit hd ih => exact ih (by omega) (.inr hj)

theorem halving_arrayBorder (fuel i j : Nat) (hfuel : j ≤ i + fuel) :
    Halving t.held i j (t.arrayBorder fuel i j) := by
  induction fuel generalizing i j with
  | zero => exact .done (by omega)
  | succ fuel ih =>
    rw [arrayBorder]
    split_ifs with hle
    · exact .done hle
    dsimp only
    split_ifs with hm
    · exact .lower (by omega) (by rw [held, hm]; rfl) (ih _ _ (by omega))
    · exact .upper (by omega) (by rw [held, Bool.not_eq_true', Bool.eq_false_iff]; exact hm)
        (ih _ _ (by omega))

theorem Valid.halving_borderBetween (hv : Valid h t) (hp : ∀ n, t.holdsInt h n = p n)
    (fuel i j : Nat) (hfuel : j ≤ i + fuel) : Halving p i j (t.borderBetween h fuel i j).1 := by
  induction fuel generalizing t i j with
  | zero => exact .done (by omega)
  | succ fuel ih =>
    rw [borderBetween]
    split_ifs with hle
    · exact .done hle
    have ih := @ih _ (hv.looked (.integer ((i + j) / 2 : Nat))) fun n => by
      rw [holdsInt, hv.present_get]
      exact hp n
    have hm := hp ((i + j) / 2)
    dsimp only
    rw [hv.hasInt_eq]
    unfold holdsInt at hm
    cases hpm : p ((i + j) / 2) <;> rw [hm, hpm]
    · exact .lower (by omega) hpm (ih _ _ (by omega))
    · exact .upper (by omega) hpm (ih _ _ (by omega))

theorem Valid.striding_lastPresentFrom (hv : Valid h t) (hp : ∀ n, t.holdsInt h n = p n)
    (fuel i : Nat) (habsent : ∃ m, i ≤ m ∧ m < i + fuel ∧ p m = false) :
    Striding p i (t.lastPresentFrom h fuel i).1 := by
  induction fuel generalizing t i with
  | zero =>
    obtain ⟨m, hle, hlt, -⟩ := habsent
    omega
  | succ fuel ih =>
    have ih := @ih _ (hv.looked (.integer i)) fun n => by
      rw [holdsInt, hv.present_get]
      exact hp n
    have hi := hp i
    rw [lastPresentFrom, hv.hasInt_eq]
    unfold holdsInt at hi
    cases hpi : p i <;> rw [hi, hpi]
    · exact .done hpi
    · obtain ⟨m, hle, hlt, hm⟩ := habsent
      have hne : i ≠ m := fun he => by simp [he, hm] at hpi
      exact .next hpi (ih _ ⟨m, by omega, by omega, hm⟩)

/-- Each doubling halves the distance to the bound. -/
theorem Valid.doubling_borderBeyond (hv : Valid h t) (hp : ∀ n, t.holdsInt h n = p n)
    (habsent : ∃ m, 1 ≤ m ∧ m < 1 + (t.array.size + t.slots.size + 1) ∧ p m = false)
    (fuel i j : Nat) (hj : j ≤ probeLimit) (hfuel : probeLimit < j * 2 ^ fuel) :
    Doubling p i j (t.borderBeyond h fuel i j).1 := by
  induction fuel generalizing t i j with
  | zero => omega
  | succ fuel ih =>
    have hv' := hv.looked (.integer j)
    have hp' : ∀ n, (t.get h (.integer j)).2.holdsInt h n = p n := fun n => by
      rw [holdsInt, hv.present_get]
      exact hp n
    have harray := congrArg Array.size (touched_get (h := h) (t := t) (.integer j)).array_eq
    have hslots := congrArg Array.size (slots_get (h := h) t (.integer j))
    rw [← harray, ← hslots] at habsent
    have hpj := hp j
    rw [borderBeyond, hv.hasInt_eq]
    unfold holdsInt at hpj
    cases hj' : p j <;> rw [hpj, hj']
    · exact .halve hj' (hv'.halving_borderBetween hp' _ _ _ (by omega))
    · dsimp only
      split_ifs with hlimit
      · exact .stride hj' hlimit (hv'.striding_lastPresentFrom hp' _ _ habsent)
      · -- one doubling less takes `2 * j` beyond the bound
        refine .double hj' (by omega) (ih hv' hp' habsent j (2 * j) (by omega) ?_)
        rwa [Nat.mul_comm 2 j, Nat.mul_assoc, ← Nat.pow_succ']

theorem Valid.length_contents_le (hv : Valid h t) :
    t.contents.length ≤ t.array.size + t.slots.size := by
  have harray : (t.displaced 0).length ≤ t.array.size := by
    rw [displaced_eq]
    exact (List.length_filterMap_le ..).trans (List.length_range' ..).le
  have hslots : t.slotEntries.length ≤ t.slots.size :=
    (List.length_filterMap_le ..).trans (hv.links ▸ hv.threads.length_le)
  rw [contents, List.length_append]
  omega

/-- Not all of the first integers are keys, if they are more than the table has cells. -/
theorem Valid.exists_not_holdsInt (hv : Valid h t) (hslots : t.slots.size ≤ maxHashSize) :
    ∃ m, 1 ≤ m ∧ m < 1 + (t.array.size + t.slots.size + 1) ∧ t.holdsInt h m = false := by
  by_contra hno
  push Not at hno
  have harray := hv.array_size
  have hlength := hv.length_contents_le
  rw [maxArraySize] at harray
  rw [maxHashSize] at hslots
  -- each of them would be the key of an entry of its own
  have hsub : (List.range' 1 (t.array.size + t.slots.size + 1)).map Int.ofNat ⊆
      t.contents.filterMap fun e => e.1.toInteger? := by
    intro m hm
    obtain ⟨m, hrange, rfl⟩ := List.mem_map.1 hm
    have hm := List.mem_range'_1.1 hrange
    obtain ⟨e, he, hek⟩ := hv.present_iff.1 ((Bool.not_eq_false _).mp (hno m hm.1 hm.2))
    refine List.mem_filterMap.2 ⟨e, he, ?_⟩
    rw [Value.toInteger?_congr hek, Value.toInteger?_integer (by omega)]
    rfl
  have hnodup : ((List.range' 1 (t.array.size + t.slots.size + 1)).map Int.ofNat).Nodup :=
    List.Nodup.map (fun a b hab => Int.ofNat.inj hab) List.nodup_range'
  have hle := (hnodup.subperm hsub).length_le.trans (List.length_filterMap_le ..)
  rw [List.length_map, List.length_range'] at hle
  omega

theorem Reachable.slots_size (hs : Reachable h s) : s.table.slots.size ≤ maxHashSize := by
  induction hs with
  | @start c a n _ =>
    unfold History.start withCapacity
    split_ifs
    · exact Nat.zero_le _
    · exact (valid_empty.settles_resize c a n).slots_size (Nat.zero_le _)
  | step op c hs ih => exact (hs.sound.valid.settles_apply c op).slots_size ih
  | setMetatable c meta? hs ih => exact ih

theorem Valid.holdsInt_eq_held (hv : Valid h t) (hn : 1 ≤ n) (hle : n ≤ t.array.size) :
    t.holdsInt h n = t.held n := by
  rw [holdsInt, present, hv.get_of_keyed (keyed_array hn hle), held, read, Value.present?]
  cases (t.array.getD (n - 1) .nil).isNil <;> rfl

theorem Valid.holdsInt_of_size_lt (hv : Valid h t) (hempty : t.slots.size = 0)
    (hlt : t.array.size < n) : t.holdsInt h n = false := by
  have hslot : t.findSlot h (.integer n) = none := by
    rw [findSlot, search, home?, if_pos (Array.isEmpty_iff_size_eq_zero.2 hempty)]
    rfl
  rw [holdsInt, present, ← hv.getInt_eq_get, getInt, if_neg (by omega), hslot]
  rfl

theorem Search.border (hn : Search h t n) (hv : Valid h t) : Border (t.holdsInt h) n := by
  have hstart : (0 < t.array.size → t.held t.array.size = true) →
      t.array.size = 0 ∨ t.holdsInt h t.array.size = true := fun hlast => by
    rcases Nat.eq_zero_or_pos t.array.size with hzero | hpos
    · exact .inl hzero
    · exact .inr ((hv.holdsInt_eq_held hpos le_rfl).trans (hlast hpos))
  cases hn with
  | within hsize hlast hh =>
    obtain ⟨⟨hpresent, habsent⟩, hlt⟩ := hh.border hsize (.inl rfl) hlast
    refine ⟨?_, (hv.holdsInt_eq_held (Nat.le_add_left ..) hlt).trans habsent⟩
    rcases Nat.eq_zero_or_pos n with hzero | hpos
    · exact .inl hzero
    · rw [hv.holdsInt_eq_held hpos hlt.le]
      exact hpresent
  | atEnd hlast hempty => exact ⟨hstart hlast, hv.holdsInt_of_size_lt hempty (Nat.lt_succ_self _)⟩
  | beyond hlast hslots hd => exact hd.border (Nat.lt_succ_self _) (hstart hlast)

/-- What `length` answers is where the search ends. -/
theorem Valid.search_length (hv : Valid h t) (hslots : t.slots.size ≤ maxHashSize) :
    Search h t (t.length h).1 := by
  unfold length
  dsimp only
  split_ifs with hlast hempty
  · exact .within hlast.1 (by rw [held, hlast.2]; rfl) (halving_arrayBorder _ _ _ (by omega))
  all_goals
    have hheld : 0 < t.array.size → t.held t.array.size = true := fun hpos => by
      rw [held, Bool.not_eq_true']
      exact Bool.eq_false_iff.2 fun hnil => hlast ⟨hpos, hnil⟩
    rw [Array.isEmpty_iff_size_eq_zero] at hempty
  · exact .atEnd hheld hempty
  · have harray := hv.array_size
    rw [maxArraySize] at harray
    refine .beyond hheld hempty (hv.doubling_borderBeyond (fun _ => rfl)
      (hv.exists_not_holdsInt hslots) 32 _ _ ?_ ?_) <;> rw [probeLimit] <;> omega

/-- The search for a border ends, whatever holes there are in the array part and wherever the
integer keys are, also if it has to count. It ends at 0 or a present integer key, and the next
integer is absent. Its look-ups change no entry. -/
theorem Reachable.border_of_length (hs : Reachable h s) :
    let n := (s.table.length h).1
    let t := (s.table.length h).2
    Search h s.table n ∧ (n = 0 ∨ (s.table.getInt h n).1.isSome = true) ∧
      (s.table.getInt h (n + 1)).1 = none ∧ (∀ k, (t.get h k).1 = (s.table.get h k).1) ∧
      t.entries h = s.table.entries h ∧ t.array = s.table.array ∧ t.slots = s.table.slots := by
  intro n t
  have hv := hs.sound.valid
  have hsearch : Search h s.table n := hv.search_length hs.slots_size
  obtain ⟨hpresent, habsent⟩ := hsearch.border hv
  have htouched : Touched s.table t := touched_length
  obtain ⟨hv', hcontents⟩ := htouched.valid hv
  rw [hv.getInt_eq_get, hv.getInt_eq_get]
  refine ⟨hsearch, hpresent, Option.not_isSome_iff_eq_none.1 ?_, fun k => ?_, ?_,
    htouched.array_eq, htouched.slots_eq.1⟩
  · exact (Bool.not_eq_true _).mpr habsent
  · rw [hv'.get_eq_lookup, hv.get_eq_lookup, hcontents]
  · rw [hv'.entries_eq, hv.entries_eq, hcontents]

def scattered : History :=
  (History.start .ofContent (.new 0 10000) 0 32).run .ofContent
    ((List.range 31).map fun i => (.setInt (2 ^ i) (.boolean true), .new 0 10000))

theorem reachable_scattered : Reachable .ofContent scattered := reachable_run (.start (by rfl)) _

/-- Doubling meets present keys only, and counting ends before 3. -/
theorem border_of_length_scattered :
    (∀ i ∈ List.range 31, scattered.table.holdsInt .ofContent (2 ^ i) = true) ∧
      Search .ofContent scattered.table 2 ∧
      (scattered.table.getInt .ofContent 2).1.isSome = true ∧
      (scattered.table.getInt .ofContent 3).1 = none := by
  have hlength : (scattered.table.length .ofContent).1 = 2 := by decide +kernel
  obtain ⟨hsearch, hpresent, habsent, -⟩ := reachable_scattered.border_of_length
  rw [hlength] at hsearch hpresent habsent
  exact ⟨by decide +kernel, hsearch, hpresent.resolve_left (by decide), habsent⟩

end LuaData.Table
