import LuaData.Chunk.Writer
import LuaData.Proofs.Chunk.Grammar

namespace LuaData

namespace Chunk

theorem flag_toUInt8 (b : Bool) : Form.flag b [b.toUInt8] := ⟨_, by cases b <;> rfl, rfl⟩

theorem field_writeField (n : Int32) : Form.field (clamp n) (writeField n) :=
  ⟨Int32.not_lt.1 (clamp_nonneg n), rfl⟩

theorem string_writeString {s : Option Str} (hs : ∀ t ∈ s, t.length ≤ Block.byteLimit) :
    Form.string (s.map Str.anonymous) (writeString s) := by
  cases s with
  | none => exact .absent
  | some t =>
    rw [writeString, List.append_assoc]
    exact .present 0 (Nat.lt_of_le_of_lt (Nat.succ_le_succ (hs t rfl)) (by decide))

section List

variable {α β : Type} {form : Form β} {k : α → β} {write : α → List UInt8} {xs : List α}

theorem list_writeList (hn : xs.length ≤ maxCount) (h : ∀ x ∈ xs, form (k x) (write x)) :
    Form.list form (xs.map k) (writeList xs write) := by
  rw [writeList, Nat.min_eq_left hn, List.take_of_length_le hn, ← List.length_map k]
  refine ⟨by rwa [List.length_map], xs.map write, ?_, by rw [List.flatMap_def]⟩
  rw [List.forall₂_map_left_iff, List.forall₂_map_right_iff, List.forall₂_same]
  exact h

theorem list_writeList_self {form : Form α} (hn : xs.length ≤ maxCount)
    (h : ∀ x ∈ xs, form x (write x)) : Form.list form xs (writeList xs write) := by
  have hlist : Form.list form (xs.map id) (writeList xs write) := list_writeList hn h
  rwa [List.map_id] at hlist

theorem list_nil (form : Form α) : Form.list form [] (littleEndian 4 0) :=
  ⟨Nat.zero_le _, [], .nil, rfl⟩

end List

theorem constant_writeConstant {k : Value} (hk : ∀ s ∈ k.string?, s.length ≤ Block.byteLimit) :
    Form.constant (k.asConstant.mapStr Str.anonymous) (writeConstant k) := by
  cases k with
  | boolean b => exact .boolean (flag_toUInt8 b)
  | number x => exact .number x
  | string s => exact .string (string_writeString hk)
  | _ => exact .nil

theorem upvalue_unnamed (u : Upvalue) : Form.upvalue u.unnamed [u.isLocal.toUInt8, u.index] :=
  ⟨rfl, _, flag_toUInt8 u.isLocal, rfl⟩

theorem localVar_writeLocal {l : LocalVar} (hl : ∀ s ∈ l.name, s.length ≤ Block.byteLimit) :
    Form.localVar (l.canonical.mapStr Str.anonymous) (writeLocal l) := by
  rw [writeLocal, List.append_assoc]
  exact ⟨_, _, _, string_writeString hl, field_writeField _, field_writeField _, rfl⟩

section Body

variable {f : Body} (strip : Bool)

theorem head_writeHead (hf : f.Expressible) :
    Form.head ((f.kept strip).mapStr Str.anonymous) (writeHead f) := by
  have hconstants := (Body.forall_mem_strings.1 hf.strings).1
  have hcode : Form.list Form.instruction f.code _ := list_writeList_self hf.code fun _ _ => rfl
  have hlist := list_writeList hf.constants fun k hk => constant_writeConstant (hconstants k hk)
  have hbytes : writeHead f =
      writeField f.lineDefined ++ (writeField f.lastLineDefined ++ ([f.paramCount] ++
        ([f.isVararg.toUInt8] ++ ([f.maxStack] ++
          (writeList f.code (fun i => littleEndian 4 i.word.toNat) ++
            writeList f.constants writeConstant))))) := by
    simp only [writeHead, List.append_assoc, List.cons_append, List.nil_append]
  have hmap : f.constants.map (fun k => k.asConstant.mapStr Str.anonymous) =
      (f.constants.map Value.asConstant).map (Value.mapStr Str.anonymous) := by
    rw [List.map_map]
    rfl
  rw [hmap] at hlist
  rw [hbytes]
  cases strip <;>
    exact .mk (field_writeField _) (field_writeField _) (flag_toUInt8 _) hcode hlist

theorem list_writeUpvalues (hf : f.Expressible) : Form.list Form.upvalue
    (((f.kept strip).mapStr Str.anonymous).upvalues.map Upvalue.unnamed) (writeUpvalues f) := by
  have hunnamed : ((f.kept strip).mapStr Str.anonymous).upvalues.map Upvalue.unnamed =
      f.upvalues.map Upvalue.unnamed := by
    cases strip <;>
      simp [Body.kept, Body.mapStr_eq, Body.canonical, Body.stripped, Function.comp_def,
        Upvalue.mapStr, Upvalue.unnamed]
  rw [hunnamed]
  exact list_writeList hf.upvalues fun u _ => upvalue_unnamed u

theorem rest_writeDebug (hf : f.Expressible) :
    Form.rest ((f.kept strip).mapStr Str.anonymous) (writeUpvalues f ++ writeDebug f strip) := by
  have hupvalues := list_writeUpvalues strip hf
  cases strip with
  | true =>
    -- empty lists stand for all that is left out
    have hbytes : writeDebug f true =
        littleEndian 8 0 ++ (littleEndian 4 0 ++ (littleEndian 4 0 ++ littleEndian 4 0)) := by
      simp only [writeDebug, if_true, List.append_assoc]
    have hnames : ((f.kept true).mapStr Str.anonymous).upvalues.map Upvalue.name =
        [] ++ List.replicate f.upvalues.length none := by
      simp [Body.kept, Body.mapStr_eq, Body.canonical, Body.stripped, Function.comp_def,
        Upvalue.mapStr, Upvalue.unnamed]
    rw [hbytes]
    exact .mk hupvalues .absent (list_nil _) (list_nil _) (list_nil _) hnames
  | false =>
    have hbytes : writeDebug f false =
        writeString f.source ++ (writeList f.lines writeWord ++ (writeList f.locals writeLocal ++
          writeList f.upvalues fun u => writeString u.name)) := by
      simp [writeDebug]
    obtain ⟨-, hsource, hlocals, hnames⟩ := Body.forall_mem_strings.1 hf.strings
    have hvars := list_writeList hf.locals fun l hl => localVar_writeLocal (hlocals l hl)
    have hmap : f.locals.map (fun l => l.canonical.mapStr Str.anonymous) =
        ((f.kept false).mapStr Str.anonymous).locals := by
      change _ = (f.locals.map LocalVar.canonical).map (LocalVar.mapStr Str.anonymous)
      rw [List.map_map]
      rfl
    have hnamed : ((f.kept false).mapStr Str.anonymous).upvalues.map Upvalue.name =
        f.upvalues.map (fun u => u.name.map Str.anonymous) ++ List.replicate 0 none := by
      simp [Body.kept, Body.mapStr_eq, Body.canonical, Upvalue.mapStr, Function.comp_def]
    rw [hmap] at hvars
    rw [hbytes]
    exact .mk hupvalues (string_writeString hsource) (list_writeList_self hf.lines fun _ _ => rfl)
      hvars (list_writeList hf.upvalues fun u hu => string_writeString (hnames u hu)) hnamed

end Body

theorem writeSome_eq (strip : Bool) (limit : Nat) (ps : List Prototype) :
    Prototype.writeSome strip limit ps = (ps.take limit).flatMap (Prototype.write strip) := by
  induction ps generalizing limit with
  | nil => simp [Prototype.writeSome]
  | cons p ps ih =>
    cases limit with
    | zero => rfl
    | succ limit => rw [Prototype.writeSome, ih, List.take_succ_cons, List.flatMap_cons]

theorem write_mk (strip : Bool) (body : Body) (children : List Prototype) :
    (Prototype.mk body children).write strip =
      writeHead body ++ (writeList children (Prototype.write strip) ++
        (writeUpvalues body ++ writeDebug body strip)) := by
  rw [Prototype.write, writeSome_eq, writeList]
  simp only [List.append_assoc]

/-- The record of a tree stands for what is kept of it. -/
theorem function_write {p : Prototype} {levels : Nat} (hp : p.Expressible levels) (strip : Bool) :
    Form.function ((p.kept strip).mapStr Str.anonymous) (p.write strip) := by
  induction levels generalizing p with
  | zero => exact absurd (hp 0 p .root).1 (Nat.not_lt_zero 0)
  | succ levels ih =>
    obtain ⟨body, children⟩ := p
    have ⟨hbody, (hcount : children.length ≤ maxCount)⟩ := (hp 0 _ .root).2
    have hchildren := list_writeList hcount fun q hq => ih (hp.children hq)
    rw [← Function.comp_def, ← List.map_map] at hchildren
    rw [write_mk, Prototype.kept_mk, Prototype.mapStr_mk, Form.function_mk_iff]
    exact ⟨_, _, _, head_writeHead strip hbody, hchildren, rest_writeDebug strip hbody, rfl⟩

end Chunk

end LuaData
