import LuaData.Interner
import Mathlib.Data.List.Sort

namespace LuaData

namespace Str

/-- `s` was made no earlier than `t`. -/
abbrev Follows (s t : Str) : Prop := t.serial ≤ s.serial

instance : Std.Total Follows := ⟨fun s t => Nat.le_total t.serial s.serial⟩

instance : IsTrans Str Follows := ⟨fun _ _ _ h h' => Nat.le_trans h' h⟩

/-- The latest string comes first, wherever it was put. -/
theorem insertionSort_append_cons {s : Str} {before after : List Str}
    (h : ∀ t ∈ before ++ after, t.serial < s.serial) :
    (before ++ s :: after).insertionSort Follows =
      s :: (before ++ after).insertionSort Follows := by
  induction before with
  | nil => exact List.insertionSort_cons_of_forall_rel Follows fun t ht => Nat.le_of_lt (h t ht)
  | cons t before ih =>
    have hlt : ¬t.Follows s := Nat.not_le.2 (h t List.mem_cons_self)
    rw [List.cons_append, List.insertionSort_cons,
      ih fun u hu => h u (List.mem_cons_of_mem _ hu), List.orderedInsert_cons, if_neg hlt]
    rfl

/-- A string in front of which nothing belongs. -/
theorem orderedInsert_of_forall {s : Str} {ss : List Str} (h : ∀ t ∈ ss, s.Follows t) :
    ss.orderedInsert Follows s = s :: ss := by
  cases ss with
  | nil => rfl
  | cons t ss => exact List.orderedInsert_cons_of_le _ _ (h t List.mem_cons_self)

theorem filter_orderedInsert (p : Str → Bool) (s : Str) {ss : List Str}
    (hss : ss.Pairwise Follows) : (ss.orderedInsert Follows s).filter p =
      if p s then (ss.filter p).orderedInsert Follows s else ss.filter p := by
  induction ss with
  | nil => cases hp : p s <;> simp [hp]
  | cons t ss ih =>
    obtain ⟨ht, hss⟩ := List.pairwise_cons.1 hss
    rw [List.orderedInsert_cons]
    split
    · rename_i hst
      have hall : ∀ u ∈ (t :: ss).filter p, s.Follows u := by
        intro u hu
        rcases List.mem_cons.1 (List.mem_filter.1 hu).1 with rfl | hu
        · exact hst
        · exact Nat.le_trans (ht u hu) hst
      rw [List.filter_cons, orderedInsert_of_forall hall]
    · rename_i hst
      rw [List.filter_cons, ih hss, List.filter_cons]
      cases p s <;> cases p t <;> simp [hst]

theorem filter_insertionSort (p : Str → Bool) (ss : List Str) :
    (ss.insertionSort Follows).filter p = (ss.filter p).insertionSort Follows := by
  induction ss with
  | nil => rfl
  | cons s ss ih =>
    rw [List.insertionSort_cons, filter_orderedInsert p s (List.pairwise_insertionSort _ _), ih,
      List.filter_cons]
    split <;> rfl

end Str

namespace Interner

def strings (i : Interner) : List Str := i.buckets.contents.insertionSort Str.Follows

theorem perm_strings (i : Interner) : i.strings.Perm i.buckets.contents :=
  List.perm_insertionSort _ _

theorem mem_strings_iff {i : Interner} {s : Str} : s ∈ i.strings ↔ s ∈ i.buckets.contents :=
  i.perm_strings.mem_iff

theorem strings_add (i : Interner) (bytes : List UInt8) :
    (i.add bytes).2.strings = (i.add bytes).1 :: i.strings := by
  obtain ⟨before, after, hold, hnew⟩ :=
    Buckets.exists_contents_push (i.hash bytes) (i.add bytes).1 i.buckets
  have hlt : ∀ t ∈ before ++ after, t.serial < i.next := by
    rw [← hold]
    exact i.serial_lt
  have hbuckets : (i.add bytes).2.buckets.contents = before ++ (i.add bytes).1 :: after := hnew
  rw [strings, hbuckets, Str.insertionSort_append_cons hlt, ← hold]
  rfl

theorem strings_sweep (i : Interner) (held : Str → Bool) :
    (i.sweep held).strings = i.strings.filter held := by
  have hbuckets : (i.sweep held).buckets.contents = i.buckets.contents.filter held :=
    Buckets.contents_retain held i.buckets
  rw [strings, hbuckets, strings, Str.filter_insertionSort]

end Interner

end LuaData
