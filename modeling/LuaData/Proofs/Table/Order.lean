import LuaData.Table.Order
import Mathlib.Data.List.Nodup
import Mathlib.Data.List.Perm.Subperm

namespace LuaData.Order

variable {o : Order} {is : List Nat}

theorem getD_modify {α : Type} (xs : Array α) (i j : Nat) (f : α → α) (d : α) :
    (xs.modify i f).getD j d = if i = j ∧ j < xs.size then f (xs.getD j d) else xs.getD j d := by
  simp only [Array.getD_eq_getD_getElem?, Array.getElem?_modify]
  by_cases hj : j < xs.size
  · by_cases hi : i = j <;> simp [hi, hj]
  · simp [hj]

@[simp] theorem size_setPrev (i : Nat) (p : Option Nat) :
    (o.setPrev i p).links.size = o.links.size := by simp [setPrev]

@[simp] theorem size_setNext (i : Nat) (n : Option Nat) :
    (o.setNext i n).links.size = o.links.size := by simp [setNext]

@[simp] theorem first_setPrev (i : Nat) (p : Option Nat) : (o.setPrev i p).first = o.first := rfl

@[simp] theorem last_setPrev (i : Nat) (p : Option Nat) : (o.setPrev i p).last = o.last := rfl

@[simp] theorem first_setNext (i : Nat) (n : Option Nat) : (o.setNext i n).first = o.first := rfl

@[simp] theorem last_setNext (i : Nat) (n : Option Nat) : (o.setNext i n).last = o.last := rfl

theorem prev_setPrev (i j : Nat) (p : Option Nat) :
    (o.setPrev i p).prev j = if i = j ∧ j < o.links.size then p else o.prev j := by
  simp only [prev, setPrev, getD_modify]
  split_ifs <;> rfl

@[simp] theorem next_setPrev (i j : Nat) (p : Option Nat) : (o.setPrev i p).next j = o.next j := by
  simp only [next, setPrev, getD_modify]
  split_ifs <;> rfl

theorem next_setNext (i j : Nat) (n : Option Nat) :
    (o.setNext i n).next j = if i = j ∧ j < o.links.size then n else o.next j := by
  simp only [next, setNext, getD_modify]
  split_ifs <;> rfl

@[simp] theorem prev_setNext (i j : Nat) (n : Option Nat) : (o.setNext i n).prev j = o.prev j := by
  simp only [prev, setNext, getD_modify]
  split_ifs <;> rfl

@[simp] theorem next_setFirst (i? : Option Nat) (j : Nat) :
    (o.setFirst i?).next j = o.next j := rfl

@[simp] theorem prev_setFirst (i? : Option Nat) (j : Nat) :
    (o.setFirst i?).prev j = o.prev j := rfl

@[simp] theorem next_setLast (i? : Option Nat) (j : Nat) : (o.setLast i?).next j = o.next j := rfl

@[simp] theorem prev_setLast (i? : Option Nat) (j : Nat) : (o.setLast i?).prev j = o.prev j := rfl

@[simp] theorem first_setLast (i? : Option Nat) : (o.setLast i?).first = o.first := rfl

@[simp] theorem size_setFirst (i? : Option Nat) :
    (o.setFirst i?).links.size = o.links.size := rfl

@[simp] theorem size_setLast (i? : Option Nat) : (o.setLast i?).links.size = o.links.size := rfl

@[simp] theorem size_linkNext (i : Nat) (p? n : Option Nat) :
    (o.linkNext i p? n).links.size = o.links.size := by
  unfold linkNext
  split
  · exact size_setNext ..
  · split_ifs <;> rfl

@[simp] theorem last_linkNext (i : Nat) (p? n : Option Nat) :
    (o.linkNext i p? n).last = o.last := by
  unfold linkNext
  split
  · rfl
  · split_ifs <;> rfl

@[simp] theorem prev_linkNext (i : Nat) (p? n : Option Nat) (j : Nat) :
    (o.linkNext i p? n).prev j = o.prev j := by
  unfold linkNext
  split
  · exact prev_setNext ..
  · split_ifs <;> rfl

theorem next_linkNext (i : Nat) (p? n : Option Nat) (j : Nat) :
    (o.linkNext i p? n).next j = if p? = some j ∧ j < o.links.size then n else o.next j := by
  unfold linkNext
  cases p? with
  | some p => simp [next_setNext]
  | none => dsimp only; split_ifs <;> simp_all

theorem first_linkNext (i : Nat) (p? n : Option Nat) :
    (o.linkNext i p? n).first = if p? = none ∧ o.first = some i then n else o.first := by
  unfold linkNext
  cases p? with
  | some p => simp
  | none => dsimp only; split_ifs <;> simp_all [setFirst]

@[simp] theorem size_linkPrev (i : Nat) (n? p : Option Nat) :
    (o.linkPrev i n? p).links.size = o.links.size := by
  unfold linkPrev
  split
  · exact size_setPrev ..
  · split_ifs <;> rfl

@[simp] theorem first_linkPrev (i : Nat) (n? p : Option Nat) :
    (o.linkPrev i n? p).first = o.first := by
  unfold linkPrev
  split
  · rfl
  · split_ifs <;> rfl

@[simp] theorem next_linkPrev (i : Nat) (n? p : Option Nat) (j : Nat) :
    (o.linkPrev i n? p).next j = o.next j := by
  unfold linkPrev
  split
  · exact next_setPrev ..
  · split_ifs <;> rfl

theorem prev_linkPrev (i : Nat) (n? p : Option Nat) (j : Nat) :
    (o.linkPrev i n? p).prev j = if n? = some j ∧ j < o.links.size then p else o.prev j := by
  unfold linkPrev
  cases n? with
  | some n => simp [prev_setPrev]
  | none => dsimp only; split_ifs <;> simp_all

theorem last_linkPrev (i : Nat) (n? p : Option Nat) :
    (o.linkPrev i n? p).last = if n? = none ∧ o.last = some i then p else o.last := by
  unfold linkPrev
  cases n? with
  | some n => simp
  | none => dsimp only; split_ifs <;> simp_all [setLast]

/-- The links of `o` thread the list `is`. -/
structure Threads (o : Order) (is : List Nat) : Prop where
  first : o.first = is.head?
  last : o.last = is.getLast?
  nodup : is.Nodup
  lt_size : ∀ i ∈ is, i < o.links.size
  linked : ∀ i ∈ is, ∃ xs ys, is = xs ++ i :: ys ∧ o.prev i = xs.getLast? ∧ o.next i = ys.head?
  unlinked : ∀ i, i ∉ is → o.prev i = none ∧ o.next i = none

theorem threads_empty (size : Nat) : Threads (empty size) [] where
  first := rfl
  last := rfl
  nodup := List.nodup_nil
  lt_size := by simp
  linked := by simp
  unlinked i _ := by
    have h : (empty size).links.getD i {} = {} := by
      simp only [empty, Array.getD_eq_getD_getElem?, Array.getElem?_replicate]
      split_ifs <;> rfl
    rw [prev, next, h]
    exact ⟨rfl, rfl⟩

/-- A member of a list without repetition has one place in it. -/
theorem split_unique {i : Nat} {xs ys as bs : List Nat} (h : (xs ++ i :: ys).Nodup)
    (he : xs ++ i :: ys = as ++ i :: bs) : xs = as ∧ ys = bs := by
  have hn : i ∉ xs ∧ i ∉ ys := by
    have := (List.nodup_middle.1 h).notMem
    simpa using this
  obtain ⟨hx, -, hy⟩ := (List.append_cons_inj_of_notMem hn.1 hn.2).1 he
  exact ⟨hx, hy⟩

theorem Threads.neighbours (h : Threads o is) {xs ys : List Nat} {i : Nat}
    (hs : is = xs ++ i :: ys) : o.prev i = xs.getLast? ∧ o.next i = ys.head? := by
  obtain ⟨as, bs, he, hp, hn⟩ := h.linked i (by simp [hs])
  obtain ⟨rfl, rfl⟩ := split_unique (hs ▸ h.nodup) (hs.symm.trans he)
  exact ⟨hp, hn⟩

/-- Following the links from a member on lists the members from there on. -/
theorem Threads.toListFrom (h : Threads o is) {xs ys : List Nat} (hs : is = xs ++ ys)
    {fuel : Nat} (hf : ys.length ≤ fuel) : o.toListFrom fuel ys.head? = ys := by
  induction ys generalizing xs fuel with
  | nil => cases fuel <;> rfl
  | cons i ys ih =>
    obtain ⟨fuel, rfl⟩ : ∃ f, fuel = f + 1 := ⟨fuel - 1, by simp at hf; omega⟩
    rw [List.head?_cons, Order.toListFrom, (h.neighbours hs).2,
      ih (show is = xs ++ [i] ++ ys by simp [hs]) (by simpa using hf)]

theorem Threads.length_le (h : Threads o is) : is.length ≤ o.links.size := by
  have hsub : is ⊆ List.range o.links.size := fun i hi => List.mem_range.2 (h.lt_size i hi)
  simpa using (List.subperm_of_subset h.nodup hsub).length_le

theorem Threads.toList_eq (h : Threads o is) : o.toList = is := by
  rw [toList, h.first]
  exact h.toListFrom (List.nil_append is).symm h.length_le

/-- Nothing but the ends and what the links say counts. -/
theorem Threads.congr {o' : Order} (h : Threads o is) (hsize : o'.links.size = o.links.size)
    (hfirst : o'.first = o.first) (hlast : o'.last = o.last) (hprev : ∀ i, o'.prev i = o.prev i)
    (hnext : ∀ i, o'.next i = o.next i) : Threads o' is where
  first := hfirst.trans h.first
  last := hlast.trans h.last
  nodup := h.nodup
  lt_size := hsize ▸ h.lt_size
  linked i hi := by
    simp only [hprev, hnext]
    exact h.linked i hi
  unlinked i hi := by
    rw [hprev, hnext]
    exact h.unlinked i hi

theorem getLast?_ne {a b : List Nat} {j : Nat} (h : (a ++ j :: b).Nodup) (hb : b ≠ []) :
    (a ++ j :: b).getLast? ≠ some j := by
  intro he
  have hl : b.getLast? = some j := by
    rw [List.getLast?_append_of_ne_nil _ (List.cons_ne_nil j b)] at he
    obtain ⟨c, b, rfl⟩ := List.exists_cons_of_ne_nil hb
    rwa [List.getLast?_cons_cons] at he
  have hn := (List.nodup_middle.1 h).notMem
  exact hn (List.mem_append_right _ (List.mem_of_getLast? hl))

theorem head?_ne {a b : List Nat} {j : Nat} (h : (a ++ j :: b).Nodup) (ha : a ≠ []) :
    (a ++ j :: b).head? ≠ some j := by
  intro he
  have hl : a.head? = some j := by rwa [List.head?_append_of_ne_nil _ ha] at he
  have hn := (List.nodup_middle.1 h).notMem
  exact hn (List.mem_append_left _ (List.mem_of_head? hl))

/-- `o'` threads `mid`, which is one slot or none, where `o` has `i` between `xs` and `ys`: it mends
the links around the gap and leaves the others alone. -/
structure Spliced (o o' : Order) (xs mid ys : List Nat) (i : Nat) : Prop where
  nodup : (xs ++ (mid ++ ys)).Nodup
  size : o'.links.size = o.links.size
  single : ∀ j ∈ mid, mid = [j] ∧ j < o.links.size
  first : o'.first = (xs ++ (mid ++ ys)).head?
  last : o'.last = (xs ++ (mid ++ ys)).getLast?
  next : ∀ j, o'.next j =
    if j ∈ mid then ys.head? else if j = i then none
    else if xs.getLast? = some j then (mid ++ ys).head? else o.next j
  prev : ∀ j, o'.prev j =
    if j ∈ mid then xs.getLast? else if j = i then none
    else if ys.head? = some j then (xs ++ mid).getLast? else o.prev j

variable {o' : Order} {xs mid ys : List Nat} {i : Nat}

/-- Before the gap only the successor of the last slot changes. -/
theorem Spliced.linked_before (hs : Spliced o o' xs mid ys i) (h : Threads o (xs ++ i :: ys))
    {j : Nat} (hj : j ∈ xs) : ∃ as bs, xs ++ (mid ++ ys) = as ++ j :: bs ∧
      o'.prev j = as.getLast? ∧ o'.next j = bs.head? := by
  have hi := (List.nodup_middle.1 h.nodup).notMem
  obtain ⟨a, b, rfl⟩ := List.append_of_mem hj
  obtain ⟨hp, hn⟩ := h.neighbours
    (show a ++ j :: b ++ i :: ys = a ++ j :: (b ++ i :: ys) by simp)
  have hjm : j ∉ mid ∧ ys.head? ≠ some j := by
    have hd : j ∉ mid ++ ys := List.disjoint_of_nodup_append hs.nodup hj
    rw [List.mem_append, not_or] at hd
    exact ⟨hd.1, fun he => hd.2 (List.mem_of_head? he)⟩
  have hji : j ≠ i := fun he => hi (List.mem_append_left _ (he ▸ hj))
  refine ⟨a, b ++ (mid ++ ys), by simp, ?_, ?_⟩
  · rw [hs.prev, if_neg hjm.1, if_neg hji, if_neg hjm.2, hp]
  · rw [hs.next, if_neg hjm.1, if_neg hji, hn]
    rcases eq_or_ne b [] with rfl | hb
    · simp
    · rw [if_neg (getLast?_ne (List.Nodup.of_append_left hs.nodup) hb),
        List.head?_append_of_ne_nil _ hb, List.head?_append_of_ne_nil _ hb]

/-- After the gap only the predecessor of the first slot changes. -/
theorem Spliced.linked_after (hs : Spliced o o' xs mid ys i) (h : Threads o (xs ++ i :: ys))
    {j : Nat} (hj : j ∈ ys) : ∃ as bs, xs ++ (mid ++ ys) = as ++ j :: bs ∧
      o'.prev j = as.getLast? ∧ o'.next j = bs.head? := by
  have hi := (List.nodup_middle.1 h.nodup).notMem
  obtain ⟨a, b, rfl⟩ := List.append_of_mem hj
  obtain ⟨hp, hn⟩ := h.neighbours
    (show xs ++ i :: (a ++ j :: b) = xs ++ i :: a ++ j :: b by simp)
  have hys : (mid ++ (a ++ j :: b)).Nodup := hs.nodup.of_append_right
  have hjm : j ∉ mid := fun hm => List.disjoint_of_nodup_append hys hm hj
  have hji : j ≠ i := fun he => hi (List.mem_append_right _ (he ▸ hj))
  have hxs : xs.getLast? ≠ some j := fun he =>
    List.disjoint_of_nodup_append hs.nodup (List.mem_of_getLast? he) (List.mem_append_right _ hj)
  refine ⟨xs ++ (mid ++ a), b, by simp, ?_, ?_⟩
  · rw [hs.prev, if_neg hjm, if_neg hji, hp]
    rcases eq_or_ne a [] with rfl | ha
    · simp
    · rw [if_neg (head?_ne hys.of_append_right ha), List.getLast?_append_of_ne_nil _ (by simp),
        List.getLast?_append_of_ne_nil _ (by simp [ha]), List.getLast?_append_of_ne_nil _ ha,
        ← List.singleton_append, List.getLast?_append_of_ne_nil _ ha]
  · rw [hs.next, if_neg hjm, if_neg hji, if_neg hxs, hn]

theorem Threads.splice (h : Threads o (xs ++ i :: ys)) (hs : Spliced o o' xs mid ys i) :
    Threads o' (xs ++ (mid ++ ys)) where
  first := hs.first
  last := hs.last
  nodup := hs.nodup
  lt_size := by
    intro j hj
    rw [hs.size]
    simp only [List.mem_append] at hj
    rcases hj with hj | hj | hj
    · exact h.lt_size j (by simp [hj])
    · exact (hs.single j hj).2
    · exact h.lt_size j (by simp [hj])
  unlinked := by
    intro j hj
    simp only [List.mem_append, not_or] at hj
    have hxs : xs.getLast? ≠ some j := fun he => hj.1 (List.mem_of_getLast? he)
    have hys : ys.head? ≠ some j := fun he => hj.2.2 (List.mem_of_head? he)
    rw [hs.prev, hs.next, if_neg hj.2.1, if_neg hj.2.1, if_neg hxs, if_neg hys]
    split_ifs with hi
    · exact ⟨rfl, rfl⟩
    · exact h.unlinked j (by simp [hj, hi])
  linked := by
    intro j hj
    rcases List.mem_append.1 hj with hj | hj
    · exact hs.linked_before h hj
    rcases List.mem_append.1 hj with hj | hj
    · obtain ⟨hm, -⟩ := hs.single j hj
      refine ⟨xs, ys, by rw [hm]; rfl, ?_, ?_⟩
      · rw [hs.prev, if_pos hj]
      · rw [hs.next, if_pos hj]
    · exact hs.linked_after h hj

theorem next_unlink (i j : Nat) : (o.unlink i).next j =
    if o.prev i = some j ∧ j < o.links.size then o.next i
    else if i = j ∧ j < o.links.size then none else o.next j := by
  simp [unlink, next_linkNext, next_setNext]

theorem prev_unlink (i j : Nat) : (o.unlink i).prev j =
    if o.next i = some j ∧ j < o.links.size then o.prev i
    else if i = j ∧ j < o.links.size then none else o.prev j := by
  simp [unlink, prev_linkPrev, prev_setPrev]

theorem first_unlink (i : Nat) : (o.unlink i).first =
    if o.prev i = none ∧ o.first = some i then o.next i else o.first := by
  simp only [unlink, first_linkPrev, first_linkNext, first_setNext, first_setPrev]
  rfl

theorem last_unlink (i : Nat) : (o.unlink i).last =
    if o.next i = none ∧ o.last = some i then o.prev i else o.last := by
  simp [unlink, last_linkPrev]

@[simp] theorem size_unlink (i : Nat) : (o.unlink i).links.size = o.links.size := by simp [unlink]

@[simp] theorem size_pushLast (i : Nat) : (o.pushLast i).links.size = o.links.size := by
  unfold pushLast
  cases o.last <;> simp

@[simp] theorem size_moveToEnd (i : Nat) : (o.moveToEnd i).links.size = o.links.size := by
  simp [moveToEnd]

@[simp] theorem size_transplant (i j : Nat) : (o.transplant i j).links.size = o.links.size := by
  simp [transplant]

theorem Threads.unlink_of_notMem (h : Threads o is) {i : Nat} (hi : i ∉ is) :
    Threads (o.unlink i) is := by
  obtain ⟨hp, hn⟩ := h.unlinked i hi
  refine h.congr (size_unlink i) ?_ ?_ (fun j => ?_) fun j => ?_
  · rw [first_unlink, if_neg]
    rintro ⟨-, hf⟩
    exact hi (List.mem_of_head? (h.first.symm.trans hf))
  · rw [last_unlink, if_neg]
    rintro ⟨-, hl⟩
    exact hi (List.mem_of_getLast? (h.last.symm.trans hl))
  · rw [prev_unlink, hn, if_neg (by simp)]
    split_ifs with hj
    · rw [← hj.1, hp]
    · rfl
  · rw [next_unlink, hp, if_neg (by simp)]
    split_ifs with hj
    · rw [← hj.1, hn]
    · rfl

theorem Threads.unlink (h : Threads o is) (i : Nat) : Threads (o.unlink i) (is.erase i) := by
  by_cases hi : i ∈ is
  swap
  · rw [List.erase_of_not_mem hi]
    exact h.unlink_of_notMem hi
  obtain ⟨xs, ys, rfl⟩ := List.append_of_mem hi
  obtain ⟨hp, hn⟩ := h.neighbours rfl
  have hmid := List.nodup_middle.1 h.nodup
  have hxs : i ∉ xs := fun hx => hmid.notMem (List.mem_append_left _ hx)
  have hys : i ∉ ys := fun hy => hmid.notMem (List.mem_append_right _ hy)
  have hlt : ∀ j ∈ xs ++ i :: ys, j < o.links.size := h.lt_size
  rw [List.erase_append_right _ hxs, List.erase_cons_head]
  -- the neighbours of `i` come to know each other, and nobody else is concerned
  suffices hs : Spliced o (o.unlink i) xs [] ys i from h.splice hs
  refine ⟨hmid.of_cons, size_unlink i, by simp, ?_, ?_, fun j => ?_, fun j => ?_⟩
  · rw [first_unlink, hp, hn, h.first]
    rcases eq_or_ne xs [] with rfl | hx
    · simp
    · rw [if_neg (by simp [hx]), List.head?_append_of_ne_nil _ hx, List.head?_append_of_ne_nil _ hx]
  · rw [last_unlink, hp, hn, h.last]
    rcases eq_or_ne ys [] with rfl | hy
    · simp
    · rw [if_neg (by simp [hy])]
      obtain ⟨y, ys, rfl⟩ := List.exists_cons_of_ne_nil hy
      simp
  · rw [next_unlink, hp, hn, if_neg List.not_mem_nil]
    by_cases hj : xs.getLast? = some j
    · have hji : j ≠ i := fun he => hxs (he ▸ List.mem_of_getLast? hj)
      simp [hj, hji, hlt j (List.mem_append_left _ (List.mem_of_getLast? hj))]
    · by_cases hji : j = i
      · simp [hji, hlt i hi, hji ▸ hj]
      · simp [hj, hji, Ne.symm hji]
  · rw [prev_unlink, hp, hn, if_neg List.not_mem_nil]
    by_cases hj : ys.head? = some j
    · have hji : j ≠ i := fun he => hys (he ▸ List.mem_of_head? hj)
      simp [hj, hji,
        hlt j (List.mem_append_right _ (List.mem_cons_of_mem _ (List.mem_of_head? hj)))]
    · by_cases hji : j = i
      · simp [hji, hlt i hi, hji ▸ hj]
      · simp [hj, hji, Ne.symm hji]

theorem next_pushLast (i j : Nat) : (o.pushLast i).next j =
    if o.last = some j ∧ j < o.links.size then some i
    else if i = j ∧ j < o.links.size then none else o.next j := by
  unfold pushLast
  cases o.last <;> simp [next_setNext]

theorem prev_pushLast (i j : Nat) : (o.pushLast i).prev j =
    if i = j ∧ j < o.links.size then o.last else o.prev j := by
  unfold pushLast
  cases o.last <;> simp [prev_setPrev]

theorem first_pushLast (i : Nat) :
    (o.pushLast i).first = if o.last = none then some i else o.first := by
  unfold pushLast
  cases o.last <;> simp [setFirst]

theorem Threads.pushLast (h : Threads o is) {i : Nat} (hi : i ∉ is) (hlt : i < o.links.size) :
    Threads (o.pushLast i) (is ++ [i]) where
  first := by
    rw [first_pushLast, h.first, h.last]
    rcases eq_or_ne is [] with rfl | hne
    · simp
    · rw [if_neg (by simp [hne]), List.head?_append_of_ne_nil _ hne]
  last := by rw [List.getLast?_concat]; rfl
  nodup := by simpa [List.nodup_append] using ⟨h.nodup, fun j hj he => hi (he ▸ hj)⟩
  lt_size := by
    intro j hj
    rw [size_pushLast]
    rcases List.mem_append.1 hj with hj | hj
    · exact h.lt_size j hj
    · exact List.mem_singleton.1 hj ▸ hlt
  unlinked := by
    intro j hj
    simp only [List.mem_append, List.mem_singleton, not_or] at hj
    have hl : o.last ≠ some j := fun he => hj.1 (List.mem_of_getLast? (h.last.symm.trans he))
    rw [next_pushLast, prev_pushLast, if_neg fun he => hj.2 he.1.symm, if_neg fun he => hl he.1,
      if_neg fun he => hj.2 he.1.symm]
    exact h.unlinked j hj.1
  linked := by
    intro j hj
    rw [next_pushLast, prev_pushLast]
    rcases List.mem_append.1 hj with hj | hj
    · obtain ⟨a, b, rfl⟩ := List.append_of_mem hj
      obtain ⟨hp, hn⟩ := h.neighbours rfl
      have hji : i ≠ j := fun he => hi (he ▸ hj)
      refine ⟨a, b ++ [i], by simp, ?_, ?_⟩
      · rw [if_neg fun he => hji he.1, hp]
      · rw [if_neg fun he : i = j ∧ _ => hji he.1, h.last, hn]
        rcases eq_or_ne b [] with rfl | hb
        · simp [h.lt_size j hj]
        · rw [if_neg fun he => getLast?_ne h.nodup hb he.1, List.head?_append_of_ne_nil _ hb]
    · obtain rfl := List.mem_singleton.1 hj
      have hl : o.last ≠ some j := fun he => hi (List.mem_of_getLast? (h.last.symm.trans he))
      refine ⟨is, [], by simp, ?_, ?_⟩
      · rw [if_pos ⟨rfl, hlt⟩, h.last]
      · rw [if_neg fun he => hl he.1, if_pos ⟨rfl, hlt⟩, List.head?_nil]

theorem Threads.moveToEnd (h : Threads o is) {i : Nat} (hlt : i < o.links.size) :
    Threads (o.moveToEnd i) (is.erase i ++ [i]) :=
  (h.unlink i).pushLast h.nodup.not_mem_erase (by rwa [size_unlink])

theorem next_transplant {i j : Nat} (hij : i ≠ j) (hp : o.prev i ≠ some j) (k : Nat) :
    (o.transplant i j).next k =
      if j = k ∧ k < o.links.size then o.next i
      else if o.prev i = some k ∧ k < o.links.size then some j
      else if i = k ∧ k < o.links.size then none else o.next k := by
  simp only [transplant, next_linkPrev, next_linkNext, next_setNext, next_setPrev, size_setNext,
    size_setPrev]
  by_cases hk : j = k
  · subst hk
    simp [hp, hij]
  · simp [hk]

theorem prev_transplant {i j : Nat} (hij : i ≠ j) (hn : o.next i ≠ some j) (k : Nat) :
    (o.transplant i j).prev k =
      if j = k ∧ k < o.links.size then o.prev i
      else if o.next i = some k ∧ k < o.links.size then some j
      else if i = k ∧ k < o.links.size then none else o.prev k := by
  simp only [transplant, prev_linkPrev, prev_linkNext, prev_setNext, prev_setPrev, size_setNext,
    size_setPrev, size_linkNext]
  by_cases hk : j = k
  · subst hk
    simp [hn, hij]
  · simp [hk]

theorem first_transplant (i j : Nat) : (o.transplant i j).first =
    if o.prev i = none ∧ o.first = some i then some j else o.first := by
  simp only [transplant, first_linkPrev, first_linkNext, first_setNext, first_setPrev]
  rfl

theorem last_transplant (i j : Nat) : (o.transplant i j).last =
    if o.next i = none ∧ o.last = some i then some j else o.last := by
  simp only [transplant, last_linkPrev, last_linkNext, last_setNext, last_setPrev]

theorem Threads.transplant {xs ys : List Nat} {i j : Nat} (h : Threads o (xs ++ i :: ys))
    (hj : j ∉ xs ++ i :: ys) (hlt : j < o.links.size) :
    Threads (o.transplant i j) (xs ++ j :: ys) := by
  obtain ⟨hp, hn⟩ := h.neighbours rfl
  have hmid := List.nodup_middle.1 h.nodup
  have hi : i ∈ xs ++ i :: ys := by simp
  have hij : i ≠ j := fun he => hj (he ▸ hi)
  have hxs : j ∉ xs := fun hx => hj (List.mem_append_left _ hx)
  have hys : j ∉ ys := fun hy => hj (List.mem_append_right _ (List.mem_cons_of_mem _ hy))
  have hxi : i ∉ xs := fun hx => hmid.notMem (List.mem_append_left _ hx)
  have hyi : i ∉ ys := fun hy => hmid.notMem (List.mem_append_right _ hy)
  have hpj : o.prev i ≠ some j := fun he => hxs (List.mem_of_getLast? (hp.symm.trans he))
  have hnj : o.next i ≠ some j := fun he => hys (List.mem_of_head? (hn.symm.trans he))
  suffices hs : Spliced o (o.transplant i j) xs [j] ys i from h.splice hs
  refine ⟨?_, size_transplant i j, by simpa using hlt, ?_, ?_, fun k => ?_, fun k => ?_⟩
  · rw [List.singleton_append, List.nodup_middle, List.nodup_cons, List.mem_append, not_or]
    exact ⟨⟨hxs, hys⟩, hmid.of_cons⟩
  · rw [first_transplant, hp, h.first]
    rcases eq_or_ne xs [] with rfl | hx
    · simp
    · rw [if_neg (by simp [hx]), List.head?_append_of_ne_nil _ hx, List.head?_append_of_ne_nil _ hx]
  · rw [last_transplant, hn, h.last]
    rcases eq_or_ne ys [] with rfl | hy
    · simp
    · rw [if_neg (by simp [hy])]
      obtain ⟨y, ys, rfl⟩ := List.exists_cons_of_ne_nil hy
      simp
  · rw [next_transplant hij hpj, hp, hn]
    by_cases hk : j = k
    · subst hk
      simp [hlt]
    by_cases hl : xs.getLast? = some k
    · have hki : k ≠ i := fun he => hxi (he ▸ List.mem_of_getLast? hl)
      simp [hl, hk, Ne.symm hk, hki, h.lt_size k (List.mem_append_left _ (List.mem_of_getLast? hl))]
    · by_cases hki : k = i
      · simp [hki, h.lt_size i hi, hki ▸ hl, Ne.symm hij, hij]
      · simp [hl, hk, Ne.symm hk, hki, Ne.symm hki]
  · rw [prev_transplant hij hnj, hp, hn]
    by_cases hk : j = k
    · subst hk
      simp [hlt]
    by_cases hl : ys.head? = some k
    · have hki : k ≠ i := fun he => hyi (he ▸ List.mem_of_head? hl)
      have hkm : k ∈ xs ++ i :: ys := by simp [List.mem_of_head? hl]
      simp [hl, hk, Ne.symm hk, hki, h.lt_size k hkm]
    · by_cases hki : k = i
      · simp [hki, h.lt_size i hi, hki ▸ hl, Ne.symm hij, hij]
      · simp [hl, hk, Ne.symm hk, hki, Ne.symm hki]

end LuaData.Order
