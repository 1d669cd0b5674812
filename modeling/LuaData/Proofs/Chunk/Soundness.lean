import LuaData.Chunk.Load
import LuaData.Proofs.Prototype

namespace LuaData.Chunk

def Yields {α : Type} (r : Reader α) (P : α → Prop) : Prop :=
  ∀ s x s', r s = .ok x s' → P x

variable {α β : Type} {P : α → Prop} {Q : β → Prop}

theorem yields_any (r : Reader α) : Yields r fun _ => True := fun _ _ _ _ => trivial

theorem yields_pure {x : α} (hx : P x) : Yields (pure x) P := by
  intro s y s' hy
  cases hy
  exact hx

theorem yields_throw (e : Cause) : Yields (throw e : Reader α) P := by
  intro s y s' hy
  cases hy

theorem Yields.bind {r : Reader α} {f : α → Reader β} (hr : Yields r P)
    (hf : ∀ x, P x → Yields (f x) Q) : Yields (r >>= f) Q := by
  intro s y s' hy
  have hb : EStateM.bind r f s = .ok y s' := hy
  unfold EStateM.bind at hb
  split at hb
  · rename_i x s₁ hx
    exact hf x (hr s x s₁ hx) s₁ y s' hb
  · cases hb

theorem yields_field : Yields Reader.field fun n => 0 ≤ n := by
  refine (yields_any _).bind fun n _ => ?_
  split
  · exact yields_throw _
  · rename_i hn
    exact yields_pure (Int32.not_lt.1 hn)

theorem Yields.times {r : Reader α} (hr : Yields r P) (n : Nat) :
    Yields (r.times n) fun xs => ∀ x ∈ xs, P x := by
  induction n with
  | zero => exact yields_pure fun x hx => absurd hx List.not_mem_nil
  | succ n ih =>
    refine hr.bind fun x hx => ih.bind fun xs hxs => yields_pure ?_
    exact List.forall_mem_cons.2 ⟨hx, hxs⟩

theorem Yields.list {r : Reader α} (hr : Yields r P) (b : Block) :
    Yields (Reader.list b r) fun xs => ∀ x ∈ xs, P x :=
  (yields_any _).bind fun n _ => (yields_any _).bind fun _ _ => hr.times n

theorem yields_constant : Yields Reader.constant fun k => k.isConstant = true := by
  refine (yields_any _).bind fun tag _ => ?_
  split
  · exact yields_pure rfl
  · exact (yields_any _).bind fun b _ => yields_pure rfl
  · exact (yields_any _).bind fun x _ => yields_pure rfl
  · refine (yields_any _).bind fun s? _ => ?_
    split
    · exact yields_pure rfl
    · exact yields_throw _
  · exact yields_throw _

theorem yields_localVar : Yields Reader.localVar fun l => 0 ≤ l.startPc ∧ 0 ≤ l.endPc := by
  refine (yields_any _).bind fun name _ => ?_
  exact yields_field.bind fun startPc hs => yields_field.bind fun endPc he => yields_pure ⟨hs, he⟩

theorem yields_accept (name : String) (f : Body) (childCount : Nat) :
    Yields (Reader.accept name f childCount) fun _ => f.fault? childCount = none := by
  refine (yields_any _).bind fun _ _ => ?_
  split
  · rename_i hf
    exact yields_pure hf
  · exact (yields_any _).bind fun _ _ => yields_throw _

/-- A function record gives a sound tree, on every level of nesting. -/
theorem yields_function (name : String) (levels : Nat) :
    Yields (Reader.function name levels) (Prototype.Sound levels) := by
  induction levels with
  | zero => exact yields_throw _
  | succ levels ih =>
    rw [Reader.function]
    refine (yields_any _).bind fun _ _ => ?_
    refine yields_field.bind fun lineDefined hline => ?_
    refine yields_field.bind fun lastLineDefined hlast => ?_
    refine (yields_any _).bind fun paramCount _ => ?_
    refine (yields_any _).bind fun isVararg _ => ?_
    refine (yields_any _).bind fun maxStack _ => ?_
    refine (yields_any _).bind fun code _ => ?_
    refine (yields_constant.list _).bind fun constants hconstants => ?_
    -- the nested functions have one level less
    refine (ih.list _).bind fun children hchildren => ?_
    refine (yields_any _).bind fun unnamed _ => ?_
    refine (yields_any _).bind fun source _ => ?_
    refine (yields_any _).bind fun lines _ => ?_
    refine (yields_localVar.list _).bind fun locals hlocals => ?_
    refine (yields_any _).bind fun upvalues _ => ?_
    -- by now the children are known, and only here is the function itself verified
    refine (yields_accept name _ _).bind fun _ hfault => yields_pure ?_
    exact Prototype.sound_mk hfault ⟨hline, hlast, hlocals, hconstants⟩ hchildren

theorem yields_chunk (name : String) :
    Yields (Reader.chunk name) (Prototype.Sound (maxDepth + 1)) := by
  refine (yields_any _).bind fun h _ => ?_
  split
  · exact yields_throw _
  · exact yields_function name _

/-- What can be run without a further check: every function of the tree is verified and plausible,
none lies deeper than functions may be nested, and every upvalue of the root has a cell of its own,
which holds nil. -/
structure Runnable (f : Closure) : Prop where
  prototypes : ∀ d q, Prototype.Occurs q d f.prototype →
    d ≤ maxDepth ∧ q.fault? = none ∧ q.body.Plausible
  cells : f.cells.length = f.prototype.body.upvalues.length
  fresh : ∀ v ∈ f.cells, v = .nil

/-- Whatever the bytes are, only runnable closures are loaded from them. -/
theorem runnable_of_load {c : Collector} {name : String} {bytes : List UInt8} {f : Closure}
    (hf : (load c name bytes).1 = .ok f) : Runnable f := by
  unfold load loadNamed at hf
  dsimp only at hf
  split at hf
  · cases hf
  rename_i served _
  split at hf
  · cases hf
  rename_i p scanned hscan
  cases hf
  -- the collector's strings take the place of those that were read
  have hp := (yields_chunk _ _ p scanned hscan).mapStr fun t => served.strings.getD t.serial t
  refine ⟨fun d q hq => ?_, List.length_replicate, fun v hv => List.eq_of_mem_replicate hv⟩
  obtain ⟨hd, hrest⟩ := hp d q hq
  exact ⟨Nat.le_of_lt_succ hd, hrest⟩

theorem eq_ok_of_isSome {ε α : Type} {x : Except ε α} (hx : x.toOption.isSome = true) :
    ∃ a, x = .ok a := by
  cases x with
  | ok a => exact ⟨a, rfl⟩
  | error e => cases hx

/-- A function with an upvalue and one function nested in it. -/
theorem runnable_of_load_nested : ∃ f,
    (load (.new 1 Collector.unlimited) "@nested" (header ++
      [0, 0, 0, 0, 0, 0, 0, 0, 0, 1, 2, 1, 0, 0, 0, 0x1f, 0, 0x80, 0, 1, 0, 0, 0, 1, 1] ++
      [1, 0, 0, 0, 1, 0, 0, 0, 2, 0, 0, 0, 0, 0, 2, 1, 0, 0, 0, 0x1f, 0, 0x80, 0, 0, 0, 0, 0] ++
      [0, 0, 0, 0, 0, 0, 0, 0, 0, 0, 0, 0, 0, 0, 0, 0, 0, 0, 0, 0, 0, 0, 0, 0, 0, 0, 0, 0] ++
      [1, 0, 0, 0, 1, 0, 0, 0, 0, 0, 0, 0, 0, 0, 0, 0, 0, 0, 0, 0, 0, 0, 0, 0, 0, 0])).1 = .ok f ∧
      Runnable f := by
  refine (eq_ok_of_isSome ?_).imp fun f hf => ⟨hf, runnable_of_load hf⟩
  decide +kernel

end LuaData.Chunk
