import LuaData.Proofs.Table.Access
import LuaData.Table.Traversal

namespace LuaData.Table

open Ledger

variable {h : SeededHash} {t : Table} {k : Value} {e : Value × Value} {es : List (Value × Value)}

/-- A traversal that goes on after the key `k` lists `es` and ends. -/
inductive Traversal (h : StringHash) (t : Table) : Value → List (Value × Value) → Prop
  | done {k : Value} : t.next h k = .ok none → Traversal h t k []
  | step {k : Value} {e : Value × Value} {es : List (Value × Value)} :
      t.next h k = .ok (some e) → Traversal h t e.1 es → Traversal h t k (e :: es)

/-- There is one way to traverse a table. -/
theorem Traversal.unique {es' : List (Value × Value)} (ht : Traversal h t k es)
    (ht' : Traversal h t k es') : es = es' := by
  induction ht generalizing es' with
  | done hn =>
    cases ht' with
    | done => rfl
    | step hn' => simp [hn] at hn'
  | step hn _ ih =>
    cases ht' with
    | done hn' => simp [hn] at hn'
    | step hn' ht' =>
      rw [hn, Except.ok.injEq, Option.some.injEq] at hn'
      subst hn'
      rw [ih ht']

theorem Traversal.entriesAfter_eq (ht : Traversal h t k es) {fuel : Nat}
    (hf : es.length ≤ fuel) : t.entriesAfter h fuel k = es := by
  induction ht generalizing fuel with
  | done hn =>
    cases fuel with
    | zero => rfl
    | succ fuel => rw [entriesAfter, hn]
  | step hn _ ih =>
    rw [List.length_cons] at hf
    obtain ⟨fuel, rfl⟩ : ∃ f, fuel = f + 1 := ⟨fuel - 1, by omega⟩
    rw [entriesAfter, hn]
    dsimp only
    rw [ih (by omega)]

def Left (t : Table) : Resume → List (Value × Value) → Prop
  | .array i, es => es = t.displaced i ++ t.slotEntries
  | .slot i?, es =>
    ∃ xs ys, t.order.toList = xs ++ ys ∧ i? = ys.head? ∧ es = ys.filterMap t.slotItem?

theorem arrayEntryFrom_eq (t : Table) (i : Nat) : t.arrayEntryFrom i = (t.displaced i).head? := by
  rw [arrayEntryFrom, arrayEntryAmong_eq, displaced_eq, List.head?_filterMap]

theorem slotEntryFrom_eq (t : Table) (fuel : Nat) (i? : Option Nat) :
    t.slotEntryFrom fuel i? = ((t.order.toListFrom fuel i?).filterMap t.slotItem?).head? := by
  induction fuel generalizing i? with
  | zero => rfl
  | succ fuel ih =>
    cases i? with
    | none => rfl
    | some i =>
      rw [slotEntryFrom, Order.toListFrom, List.filterMap_cons, ih]
      cases t.slotItem? i <;> rfl

/-- The entry that comes next is the first of those left. -/
theorem Valid.next_eq (hv : Valid h t) {r : Resume} (hr : t.resume h k = .ok r)
    (hl : t.Left r es) : t.next h k = .ok es.head? := by
  rw [next, hr]
  cases r with
  | array i =>
    dsimp only
    rw [show es = _ from hl, arrayEntryFrom_eq, slotEntryFrom_eq, List.head?_append, ← hv.links]
    rfl
  | slot i? =>
    obtain ⟨xs, ys, hs, rfl, rfl⟩ := hl
    have hlen : ys.length ≤ t.slots.size := by
      have hle := hv.threads.length_le
      rw [hs, List.length_append, hv.links] at hle
      omega
    dsimp only
    rw [slotEntryFrom_eq, hv.threads.toListFrom hs hlen]

theorem Valid.resume_displaced (hv : Valid h t) {i : Nat} (hd : t.displaced i = e :: es) :
    ∃ j, t.resume h e.1 = .ok (.array j) ∧ t.displaced j = es := by
  rw [displaced_eq] at hd
  obtain ⟨as, j, bs, hs, -, hj, hrest⟩ := List.filterMap_eq_cons_iff.1 hd
  obtain ⟨m, -, -, hbs⟩ := List.range'_eq_append_iff.1 hs
  obtain ⟨rfl, hpos, rfl⟩ := List.range'_eq_cons_iff.1 hbs.symm
  rw [Nat.mul_one] at hj hrest
  have hlt : i + m < t.array.size := by omega
  have hkey : e.1 = .integer ((i + m : Nat) + 1) := (arrayItem?_eq_some_iff.1 hj).1
  have hindex : t.arrayIndex? e.1 = some (i + m) :=
    (arrayIndex?_eq_some_iff hv.array_size).2 ⟨hlt, hkey⟩
  have hk : e.1.isNil = false := hkey ▸ rfl
  refine ⟨i + m + 1, ?_, ?_⟩
  · rw [resume, if_neg (by rw [hk]; exact Bool.false_ne_true), hindex]
  · rw [displaced_eq, ← hrest, show t.array.size - i - m - 1 = t.array.size - (i + m + 1) by omega]

theorem Valid.resume_slot (hv : Valid h t) {xs ys : List Nat} (hs : t.order.toList = xs ++ ys)
    (hys : ys.filterMap t.slotItem? = e :: es) :
    ∃ i?, t.resume h e.1 = .ok (.slot i?) ∧ t.Left (.slot i?) es := by
  obtain ⟨as, i, bs, rfl, -, hi, hrest⟩ := List.filterMap_eq_cons_iff.1 hys
  have hkey : e.1 = (t.slot i).key := (slotItem?_eq_some_iff.1 hi).1
  have hused : t.Used i := (hv.member i).1 (by rw [hs]; simp)
  have hk := hv.chained.isKey i hused
  have hs' : t.order.toList = (xs ++ as) ++ i :: bs := by rw [hs, List.append_assoc]
  have hindex : t.arrayIndex? e.1 = none := arrayIndex?_eq_none_iff.2 (hkey ▸ hv.apart i hused)
  have hfind : t.findSlot h e.1 = some i :=
    (hv.findSlot_eq_some_iff (hkey ▸ hk.1)).2 ⟨hused, hkey ▸ hk.equal_self⟩
  refine ⟨t.order.next i, ?_, xs ++ as ++ [i], bs, ?_, ?_, hrest.symm⟩
  · rw [resume, if_neg (by rw [hkey, hk.1]; exact Bool.false_ne_true), hindex]
    dsimp only
    rw [hfind]
  · rw [hs', List.append_cons]
  · exact (hv.threads.neighbours hs').2

theorem Valid.left_tail (hv : Valid h t) {r : Resume} (hl : t.Left r (e :: es)) :
    ∃ r', t.resume h e.1 = .ok r' ∧ t.Left r' es := by
  cases r with
  | slot i? =>
    obtain ⟨xs, ys, hs, -, hes⟩ := hl
    obtain ⟨j?, hr, hleft⟩ := hv.resume_slot hs hes.symm
    exact ⟨_, hr, hleft⟩
  | array i =>
    have hl : e :: es = t.displaced i ++ t.slotEntries := hl
    cases hd : t.displaced i with
    | nil =>
      -- the array part is done, and the slots come next
      rw [hd, List.nil_append] at hl
      obtain ⟨j?, hr, hleft⟩ := hv.resume_slot (List.nil_append _).symm hl.symm
      exact ⟨_, hr, hleft⟩
    | cons d ds =>
      rw [hd, List.cons_append, List.cons.injEq] at hl
      obtain ⟨rfl, rfl⟩ := hl
      obtain ⟨j, hr, hds⟩ := hv.resume_displaced hd
      refine ⟨_, hr, ?_⟩
      rw [Left, hds]

theorem Valid.traversal_of_left (hv : Valid h t) {r : Resume} (hr : t.resume h k = .ok r)
    (hl : t.Left r es) : Traversal h t k es := by
  induction es generalizing k r with
  | nil => exact .done (hv.next_eq hr hl)
  | cons e es ih =>
    obtain ⟨r', hr', hl'⟩ := hv.left_tail hl
    exact .step (hv.next_eq hr hl) (ih hr' hl')

/-- A traversal from the start lists the contents. -/
theorem Valid.traversal_contents (hv : Valid h t) : Traversal h t .nil t.contents :=
  hv.traversal_of_left (r := .array 0) rfl rfl

theorem Valid.entries_eq (hv : Valid h t) : t.entries h = t.contents := by
  refine hv.traversal_contents.entriesAfter_eq ?_
  have hd : (t.displaced 0).length ≤ t.array.size := by
    rw [displaced_eq, Nat.sub_zero]
    exact (List.length_filterMap_le _ _).trans (List.length_range' ..).le
  have hs : t.slotEntries.length ≤ t.slots.size :=
    (List.length_filterMap_le _ _).trans (hv.links ▸ hv.threads.length_le)
  rw [contents, List.length_append]
  omega

end LuaData.Table
