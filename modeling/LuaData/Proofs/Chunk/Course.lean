import LuaData.Collector
import LuaData.Proofs.Chunk.Grammar

/-!
# The course of reading

The format tells which bytes stand for a tree. The course of reading a tree tells more: in which
order bytes are taken and requests are made, and at which places the bytes are not determined by the
tree. These are the true flags, the bytes that end strings, and how many upvalues are named.
-/

namespace LuaData

namespace Chunk

/-- What a tree needs of a collector: a block, or a string that one of its functions holds. -/
inductive Need where
  | block (b : Block) (count : Nat)
  | text (s : Str)
  deriving DecidableEq

def Need.mapStr (f : Str → Str) : Need → Need
  | block b count => block b count
  | text s => text (f s)

/-- One step of reading. -/
inductive Move where
  | take (bytes : List UInt8)
  | flag (byte : UInt8)
  | terminator (byte : UInt8)
  | names (given upvalues : Nat)
  | ask (d : Need)
  deriving DecidableEq

namespace Move

def bytes : Move → List UInt8
  | take bytes => bytes
  | flag byte | terminator byte => [byte]
  | names given _ => littleEndian 4 given
  | ask _ => []

def asks : Move → List Need
  | ask d => [d]
  | _ => []

/-- Whether a step takes what would be written. -/
def IsPlain : Move → Prop
  | flag byte => byte = 0 ∨ byte = 1
  | terminator byte => byte = 0
  | names given upvalues => given = upvalues
  | take _ | ask _ => True

instance : DecidablePred IsPlain
  | flag byte => inferInstanceAs (Decidable (byte = 0 ∨ byte = 1))
  | terminator byte => inferInstanceAs (Decidable (byte = 0))
  | names given upvalues => inferInstanceAs (Decidable (given = upvalues))
  | take _ | ask _ => .isTrue trivial

def mapStr (f : Str → Str) : Move → Move
  | ask n => ask (n.mapStr f)
  | m => m

end Move

def taken (ms : List Move) : List UInt8 := ms.flatMap Move.bytes

def needs (ms : List Move) : List Need := ms.flatMap Move.asks

section Steps

variable (m : Move) (ms ms' : List Move)

@[simp] theorem taken_nil : taken [] = [] := rfl

@[simp] theorem taken_cons : taken (m :: ms) = m.bytes ++ taken ms := List.flatMap_cons

@[simp] theorem taken_append : taken (ms ++ ms') = taken ms ++ taken ms' := List.flatMap_append

@[simp] theorem needs_nil : needs [] = [] := rfl

@[simp] theorem needs_cons : needs (m :: ms) = m.asks ++ needs ms := List.flatMap_cons

@[simp] theorem needs_append : needs (ms ++ ms') = needs ms ++ needs ms' :=
  List.flatMap_append

theorem taken_flatten (parts : List (List Move)) :
    taken parts.flatten = (parts.map taken).flatten := by
  induction parts with
  | nil => rfl
  | cons part parts ih => rw [List.flatten_cons, taken_append, ih, List.map_cons, List.flatten_cons]

theorem Move.bytes_mapStr (f : Str → Str) (m : Move) : (m.mapStr f).bytes = m.bytes := by
  cases m <;> rfl

theorem Move.asks_mapStr (f : Str → Str) (m : Move) :
    (m.mapStr f).asks = m.asks.map (Need.mapStr f) := by
  cases m <;> rfl

theorem taken_map_mapStr (f : Str → Str) : taken (ms.map (Move.mapStr f)) = taken ms := by
  rw [taken, List.flatMap_map, taken]
  exact List.flatMap_congr fun m _ => m.bytes_mapStr f

theorem needs_map_mapStr (f : Str → Str) :
    needs (ms.map (Move.mapStr f)) = (needs ms).map (Need.mapStr f) := by
  rw [needs, List.flatMap_map, needs, List.map_flatMap]
  exact List.flatMap_congr fun m _ => m.asks_mapStr f

end Steps

/-- The steps by which reading may come to a value. -/
abbrev Course (α : Type) := α → List Move → Prop

namespace Course

def int : Course Int32 := fun n ms => ms = [.take (littleEndian 4 n.toUInt32.toNat)]

def field : Course Int32 := fun n ms => 0 ≤ n ∧ int n ms

def flag : Course Bool := fun b ms => ∃ x : UInt8, b = (x != 0) ∧ ms = [.flag x]

def instruction : Course Instruction := fun i ms => ms = [.take (littleEndian 4 i.word.toNat)]

inductive string : Option Str → List Move → Prop
  | absent : string none [.take (littleEndian 8 0)]
  | present {s : Str} (terminator : UInt8) (hsize : s.length + 1 < 1 <<< 64) :
    string (some s) [.take (littleEndian 8 (s.length + 1)), .take s.bytes, .terminator terminator,
      .ask (.text s)]

inductive constant : Value → List Move → Prop
  | nil : constant .nil [.take [0]]
  | boolean {b : Bool} {ms : List Move} : flag b ms → constant (.boolean b) (.take [1] :: ms)
  | number (x : Number) : constant (.number x) [.take [3], .take (littleEndian 8 x.bits.toNat)]
  | string {s : Str} {ms : List Move} :
    Course.string (some s) ms → constant (.string s) (.take [4] :: ms)

def list {α : Type} (b : Block) (course : Course α) : Course (List α) := fun xs ms =>
  xs.length ≤ maxCount ∧ ∃ parts, List.Forall₂ course xs parts ∧
    ms = .take (littleEndian 4 xs.length) :: .ask (.block b xs.length) :: parts.flatten

def upvalue : Course Upvalue := fun u ms =>
  ∃ a, flag u.isLocal a ∧ ms = a ++ [.take [u.index]]

def localVar : Course LocalVar := fun l ms =>
  ∃ a b c, string l.name a ∧ field l.startPc b ∧ field l.endPc c ∧ ms = a ++ (b ++ c)

def names : Course (List Upvalue) := fun us ms =>
  ∃ named unnamed parts, named.length ≤ maxCount ∧ List.Forall₂ string named parts ∧
    us.map Upvalue.name = named ++ List.replicate unnamed none ∧
    ms = .names named.length us.length :: parts.flatten

inductive head (f : Body) : List Move → Prop
  | mk {line last isVararg code constants : List Move} :
    field f.lineDefined line → field f.lastLineDefined last → flag f.isVararg isVararg →
    list .code instruction f.code code → list .constants constant f.constants constants →
    head f (.ask (.block .prototype 1) :: (line ++ (last ++ ([.take [f.paramCount]] ++
      (isVararg ++ ([.take [f.maxStack]] ++ (code ++ constants)))))))

inductive rest (f : Body) : List Move → Prop
  | mk {upvalues source lines locals named : List Move} :
    list .upvalues upvalue f.upvalues upvalues → string f.source source →
    list .lineInfo int f.lines lines → list .locals localVar f.locals locals →
    names f.upvalues named →
    rest f (upvalues ++ (source ++ (lines ++ (locals ++ named))))

inductive function : Prototype → List Move → Prop
  | mk {f : Body} {children : List Prototype} {a c : List Move} {parts : List (List Move)} :
    head f a → children.length ≤ maxCount → List.Forall₂ function children parts → rest f c →
    function (.mk f children) (a ++ ((.take (littleEndian 4 children.length) ::
      .ask (.block .children children.length) :: parts.flatten) ++ c))

theorem function_mk_iff {f : Body} {children : List Prototype} {ms : List Move} :
    function (.mk f children) ms ↔
      ∃ a b c, head f a ∧ list .children function children b ∧ rest f c ∧ ms = a ++ (b ++ c) := by
  constructor
  · rintro ⟨ha, hcount, hparts, hc⟩
    exact ⟨_, _, _, ha, ⟨hcount, _, hparts, rfl⟩, hc, rfl⟩
  · rintro ⟨a, b, c, ha, ⟨hcount, parts, hparts, rfl⟩, hc, rfl⟩
    exact .mk ha hcount hparts hc

def chunk : Course Prototype := fun p ms =>
  ∃ record, function p record ∧ ms = .take header :: record

end Course

end Chunk

open Chunk

def Body.headNeeds (b : Body) : List Need :=
  .block .prototype 1 :: .block .code b.code.length :: .block .constants b.constants.length ::
    (b.constants.filterMap Value.string?).map .text

def Body.restNeeds (b : Body) : List Need :=
  .block .upvalues b.upvalues.length :: b.source.toList.map .text ++
    .block .lineInfo b.lines.length :: .block .locals b.locals.length ::
      (b.locals.filterMap LocalVar.name).map .text ++
    (b.upvalues.filterMap Upvalue.name).map .text

namespace Prototype

mutual

def needs : Prototype → List Need
  | mk body children =>
    body.headNeeds ++ .block .children children.length :: needsAll children ++
      body.restNeeds

def needsAll : List Prototype → List Need
  | [] => []
  | p :: ps => needs p ++ needsAll ps

end

theorem needs_mk (body : Body) (children : List Prototype) : (mk body children).needs =
    body.headNeeds ++ ((.block .children children.length :: children.flatMap needs) ++
      body.restNeeds) := by
  have hall (ps : List Prototype) : needsAll ps = ps.flatMap needs := by
    induction ps with
    | nil => rfl
    | cons p ps ih => rw [needsAll, ih, List.flatMap_cons]
  rw [needs, hall, List.append_assoc]

end Prototype

namespace Chunk

section Needs

variable {α : Type} {course : Course α} {b : Block} {xs : List α} {ms : List Move}

theorem forall₂_needs {f : α → List Need} {parts : List (List Move)}
    (h : ∀ x ∈ xs, ∀ ms, course x ms → needs ms = f x) (hparts : List.Forall₂ course xs parts) :
    needs parts.flatten = xs.flatMap f := by
  induction hparts with
  | nil => rfl
  | cons hx _ ih =>
    obtain ⟨h, hrest⟩ := List.forall_mem_cons.1 h
    rw [List.flatten_cons, needs_append, h _ hx, ih hrest, List.flatMap_cons]

theorem list_needs {f : α → List Need} (h : ∀ x ∈ xs, ∀ ms, course x ms → needs ms = f x)
    (hms : Course.list b course xs ms) : needs ms = .block b xs.length :: xs.flatMap f := by
  obtain ⟨-, parts, hparts, rfl⟩ := hms
  rw [needs_cons, needs_cons, forall₂_needs h hparts]
  rfl

theorem flatMap_text (g : α → Option Str) (xs : List α) :
    (xs.flatMap fun x => (g x).toList.map Need.text) = (xs.filterMap g).map .text := by
  induction xs with
  | nil => rfl
  | cons x xs ih =>
    rw [List.flatMap_cons, ih, List.filterMap_cons]
    cases g x <;> rfl

/-- Elements with a string at most. -/
theorem list_needs_text {g : α → Option Str}
    (h : ∀ x ms, course x ms → needs ms = (g x).toList.map .text)
    (hms : Course.list b course xs ms) :
    needs ms = .block b xs.length :: (xs.filterMap g).map .text := by
  rw [list_needs (fun x _ => h x) hms, flatMap_text]

/-- Elements without strings. -/
theorem list_needs_free (h : ∀ x ms, course x ms → needs ms = [])
    (hms : Course.list b course xs ms) : needs ms = [.block b xs.length] := by
  rw [list_needs (fun x _ => h x) hms, List.flatMap_eq_nil_iff.2 fun _ _ => rfl]

theorem field_needs {n : Int32} (h : Course.field n ms) : needs ms = [] := by
  obtain ⟨-, rfl⟩ := h
  rfl

theorem flag_needs {x : Bool} (h : Course.flag x ms) : needs ms = [] := by
  obtain ⟨y, -, rfl⟩ := h
  rfl

theorem string_needs (s : Option Str) (ms : List Move) (h : Course.string s ms) :
    needs ms = s.toList.map .text := by
  cases h <;> rfl

theorem constant_needs (k : Value) (ms : List Move) (h : Course.constant k ms) :
    needs ms = k.string?.toList.map .text := by
  cases h with
  | boolean h =>
    rw [needs_cons, flag_needs h]
    rfl
  | string h =>
    rw [needs_cons, string_needs _ _ h]
    rfl
  | _ => rfl

theorem upvalue_needs (u : Upvalue) (ms : List Move) (h : Course.upvalue u ms) :
    needs ms = [] := by
  obtain ⟨a, ha, rfl⟩ := h
  rw [needs_append, flag_needs ha]
  rfl

theorem localVar_needs (l : LocalVar) (ms : List Move) (h : Course.localVar l ms) :
    needs ms = l.name.toList.map .text := by
  obtain ⟨a, b, c, ha, hb, hc, rfl⟩ := h
  rw [needs_append, needs_append, string_needs _ _ ha, field_needs hb, field_needs hc,
    List.append_nil, List.append_nil]

theorem names_needs {us : List Upvalue} (h : Course.names us ms) :
    needs ms = (us.filterMap Upvalue.name).map .text := by
  obtain ⟨ns, n, parts, -, hparts, hnames, rfl⟩ := h
  -- the names are those given and, for the other upvalues, none
  have hfilter : us.filterMap Upvalue.name = ns.filterMap id := by
    have hnone : (List.replicate n (none : Option Str)).filterMap id = [] := by
      rw [List.filterMap_eq_nil_iff]
      exact fun x hx => List.eq_of_mem_replicate hx
    calc us.filterMap Upvalue.name = (us.map Upvalue.name).filterMap id := by
          rw [List.filterMap_map]
          rfl
      _ = ns.filterMap id := by rw [hnames, List.filterMap_append, hnone, List.append_nil]
  rw [needs_cons, forall₂_needs (fun s _ => string_needs s) hparts, hfilter]
  exact flatMap_text id ns

theorem head_needs {f : Body} (h : Course.head f ms) : needs ms = f.headNeeds := by
  obtain ⟨hline, hlast, hvararg, hcode, hconstants⟩ := h
  have hwords := list_needs_free (fun i ms (hi : Course.instruction i ms) => by rw [hi]; rfl) hcode
  simp only [needs_cons, needs_append, field_needs hline, field_needs hlast,
    flag_needs hvararg, hwords, list_needs_text constant_needs hconstants]
  rfl

theorem rest_needs {f : Body} (h : Course.rest f ms) : needs ms = f.restNeeds := by
  obtain ⟨hupvalues, hsource, hlines, hlocals, hnames⟩ := h
  have hwords := list_needs_free (fun n ms (hn : Course.int n ms) => by rw [hn]; rfl) hlines
  simp only [needs_append, list_needs_free upvalue_needs hupvalues,
    string_needs _ _ hsource, hwords, list_needs_text localVar_needs hlocals,
    names_needs hnames, Body.restNeeds, List.cons_append, List.nil_append, List.append_assoc]

theorem function_needs {p : Prototype} (h : Course.function p ms) :
    needs ms = p.needs := by
  induction p generalizing ms with
  | mk body children ih =>
    obtain ⟨a, b, c, ha, hb, hc, rfl⟩ := Course.function_mk_iff.1 h
    rw [needs_append, needs_append, head_needs ha,
      list_needs (fun q hq ms => ih q hq) hb, rest_needs hc, Prototype.needs_mk]

theorem chunk_needs {p : Prototype} (h : Course.chunk p ms) : needs ms = p.needs := by
  obtain ⟨record, hrecord, rfl⟩ := h
  rw [needs_cons, function_needs hrecord]
  rfl

end Needs

section Form

variable {α β : Type} {course : Course α} {form : Form β} {b : Block} {f : α → β} {xs : List α}
variable {ms : List Move}

theorem forall₂_form {parts : List (List Move)}
    (h : ∀ x ∈ xs, ∀ ms, course x ms → form (f x) (taken ms))
    (hparts : List.Forall₂ course xs parts) :
    List.Forall₂ form (xs.map f) (parts.map taken) := by
  rw [List.forall₂_map_left_iff, List.forall₂_map_right_iff]
  exact ((List.forall₂_and_left xs parts).2 ⟨h, hparts⟩).imp fun x ms hx => hx.1 ms hx.2

theorem list_form (h : ∀ x ∈ xs, ∀ ms, course x ms → form (f x) (taken ms))
    (hms : Course.list b course xs ms) : Form.list form (xs.map f) (taken ms) := by
  obtain ⟨hcount, parts, hparts, rfl⟩ := hms
  refine ⟨by rwa [List.length_map], parts.map taken, forall₂_form h hparts, ?_⟩
  simp only [taken_cons, Move.bytes, taken_flatten, List.nil_append, List.length_map]

theorem list_form_self {form : Form α} (h : ∀ x ms, course x ms → form x (taken ms))
    (hms : Course.list b course xs ms) : Form.list form xs (taken ms) := by
  have hlist : Form.list form (xs.map id) (taken ms) := list_form (fun x _ => h x) hms
  rwa [List.map_id] at hlist

theorem int_form (n : Int32) (ms : List Move) (h : Course.int n ms) : Form.int n (taken ms) := by
  obtain rfl := h
  exact List.append_nil _

theorem field_form (n : Int32) (ms : List Move) (h : Course.field n ms) :
    Form.field n (taken ms) := ⟨h.1, int_form n ms h.2⟩

theorem flag_form {x : Bool} (h : Course.flag x ms) : Form.flag x (taken ms) := by
  obtain ⟨y, hx, rfl⟩ := h
  exact ⟨y, hx, rfl⟩

theorem instruction_form (i : Instruction) (ms : List Move) (h : Course.instruction i ms) :
    Form.instruction i (taken ms) := by
  obtain rfl := h
  exact List.append_nil _

theorem string_form (s : Option Str) (ms : List Move) (h : Course.string s ms) :
    Form.string (s.map Str.anonymous) (taken ms) := by
  cases h with
  | absent => exact .absent
  | present terminator hsize => exact .present terminator hsize

theorem constant_form (k : Value) (ms : List Move) (h : Course.constant k ms) :
    Form.constant (k.mapStr Str.anonymous) (taken ms) := by
  cases h with
  | nil => exact .nil
  | boolean h => exact .boolean (flag_form h)
  | number x =>
    have hbytes : taken [.take [3], .take (littleEndian 8 x.bits.toNat)] =
        3 :: littleEndian 8 x.bits.toNat := congrArg (3 :: ·) (List.append_nil _)
    rw [hbytes]
    exact .number x
  | string h => exact .string (string_form _ _ h)

theorem upvalue_form (u : Upvalue) (ms : List Move) (h : Course.upvalue u ms) :
    Form.upvalue u.unnamed (taken ms) := by
  obtain ⟨a, ha, rfl⟩ := h
  exact ⟨rfl, taken a, flag_form ha, taken_append _ _⟩

theorem localVar_form (l : LocalVar) (ms : List Move) (h : Course.localVar l ms) :
    Form.localVar (l.mapStr Str.anonymous) (taken ms) := by
  obtain ⟨a, b, c, ha, hb, hc, rfl⟩ := h
  refine ⟨_, _, _, string_form _ _ ha, field_form _ _ hb, field_form _ _ hc, ?_⟩
  rw [taken_append, taken_append]

theorem head_form {f : Body} (h : Course.head f ms) :
    Form.head (f.mapStr Str.anonymous) (taken ms) := by
  obtain ⟨hline, hlast, hvararg, hcode, hconstants⟩ := h
  have hlist := list_form (fun k _ => constant_form k) hconstants
  simp only [taken_cons, taken_append, Move.bytes, List.nil_append, taken_nil, List.append_nil]
  exact .mk (field_form _ _ hline) (field_form _ _ hlast) (flag_form hvararg)
    (list_form_self instruction_form hcode) hlist

theorem rest_form {f : Body} (h : Course.rest f ms) :
    Form.rest (f.mapStr Str.anonymous) (taken ms) := by
  obtain ⟨hupvalues, hsource, hlines, hlocals, ns, n, parts, hcount, hparts, hnames, rfl⟩ := h
  have hflags := list_form (fun u _ => upvalue_form u) hupvalues
  have hvars := list_form (fun l _ => localVar_form l) hlocals
  have hnamed : Form.list Form.string (ns.map (Option.map Str.anonymous))
      (taken (.names ns.length f.upvalues.length :: parts.flatten)) := by
    refine ⟨by rwa [List.length_map], parts.map taken,
      forall₂_form (fun s _ => string_form s) hparts, ?_⟩
    rw [taken_cons, taken_flatten, List.length_map]
    rfl
  have hunnamed : (f.mapStr Str.anonymous).upvalues.map Upvalue.unnamed =
      f.upvalues.map Upvalue.unnamed := by
    rw [Body.mapStr_eq, List.map_map]
    rfl
  have hall : (f.mapStr Str.anonymous).upvalues.map Upvalue.name =
      ns.map (Option.map Str.anonymous) ++ List.replicate n none := by
    have hmap := congrArg (List.map (Option.map Str.anonymous)) hnames
    rw [List.map_map, List.map_append, List.map_replicate] at hmap
    rw [Body.mapStr_eq, List.map_map]
    exact hmap
  rw [← hunnamed] at hflags
  simp only [taken_append]
  exact .mk hflags (string_form _ _ hsource) (list_form_self int_form hlines) hvars hnamed hall

theorem function_form {p : Prototype} (h : Course.function p ms) :
    Form.function (p.mapStr Str.anonymous) (taken ms) := by
  induction p generalizing ms with
  | mk body children ih =>
    obtain ⟨a, b, c, ha, hb, hc, rfl⟩ := Course.function_mk_iff.1 h
    rw [Prototype.mapStr_mk, Form.function_mk_iff]
    refine ⟨_, _, _, head_form ha, list_form (fun q hq ms => ih q hq) hb, rest_form hc, ?_⟩
    rw [taken_append, taken_append]

theorem chunk_form {p : Prototype} (h : Course.chunk p ms) :
    Form.chunk (p.mapStr Str.anonymous) (taken ms) := by
  obtain ⟨record, hrecord, rfl⟩ := h
  exact ⟨_, function_form hrecord, rfl⟩

end Form

def KeepsTexts (f : Str → Str) (ms : List Move) : Prop :=
  ∀ s, .text s ∈ needs ms → (f s).bytes = s.bytes

section MapStr

variable {α : Type} {course : Course α} {f : Str → Str} {g : α → α} {b : Block} {xs : List α}
variable {m : Move} {ms ms' : List Move}

theorem keepsTexts_cons : KeepsTexts f (m :: ms) ↔ KeepsTexts f [m] ∧ KeepsTexts f ms := by
  simp only [KeepsTexts, needs_cons, needs_nil, List.mem_append, List.not_mem_nil, or_false]
  exact ⟨fun h => ⟨fun s hs => h s (.inl hs), fun s hs => h s (.inr hs)⟩,
    fun h s hs => hs.elim (h.1 s) (h.2 s)⟩

theorem keepsTexts_append : KeepsTexts f (ms ++ ms') ↔ KeepsTexts f ms ∧ KeepsTexts f ms' := by
  simp only [KeepsTexts, needs_append, List.mem_append]
  exact ⟨fun h => ⟨fun s hs => h s (.inl hs), fun s hs => h s (.inr hs)⟩,
    fun h s hs => hs.elim (h.1 s) (h.2 s)⟩

theorem forall₂_mapStr {parts : List (List Move)}
    (h : ∀ x ∈ xs, ∀ ms, KeepsTexts f ms → course x ms → course (g x) (ms.map (Move.mapStr f)))
    (hf : KeepsTexts f parts.flatten) (hparts : List.Forall₂ course xs parts) :
    List.Forall₂ course (xs.map g) (parts.map (List.map (Move.mapStr f))) := by
  induction hparts with
  | nil => exact .nil
  | cons hx _ ih =>
    obtain ⟨h, hrest⟩ := List.forall_mem_cons.1 h
    rw [List.flatten_cons, keepsTexts_append] at hf
    exact .cons (h _ hf.1 hx) (ih hrest hf.2)

theorem list_mapStr
    (h : ∀ x ∈ xs, ∀ ms, KeepsTexts f ms → course x ms → course (g x) (ms.map (Move.mapStr f)))
    (hf : KeepsTexts f ms) (hms : Course.list b course xs ms) :
    Course.list b course (xs.map g) (ms.map (Move.mapStr f)) := by
  obtain ⟨hcount, parts, hparts, rfl⟩ := hms
  obtain ⟨-, hf⟩ := keepsTexts_cons.1 (keepsTexts_cons.1 hf).2
  refine ⟨by rwa [List.length_map], _, forall₂_mapStr h hf hparts, ?_⟩
  rw [List.map_cons, List.map_cons, List.map_flatten, List.length_map]
  rfl

/-- Elements without strings. -/
theorem list_mapStr_self (h : ∀ x ms, course x ms → ms.map (Move.mapStr f) = ms)
    (hf : KeepsTexts f ms) (hms : Course.list b course xs ms) :
    Course.list b course xs (ms.map (Move.mapStr f)) := by
  have hlist : Course.list b course (xs.map id) (ms.map (Move.mapStr f)) :=
    list_mapStr (fun x _ ms _ hx => (h x ms hx).symm ▸ hx) hf hms
  rwa [List.map_id] at hlist

theorem int_mapStr (n : Int32) (ms : List Move) (h : Course.int n ms) :
    ms.map (Move.mapStr f) = ms := by
  obtain rfl := h
  rfl

theorem instruction_mapStr (i : Instruction) (ms : List Move) (h : Course.instruction i ms) :
    ms.map (Move.mapStr f) = ms := by
  obtain rfl := h
  rfl

theorem flag_mapStr {x : Bool} (h : Course.flag x ms) : ms.map (Move.mapStr f) = ms := by
  obtain ⟨y, -, rfl⟩ := h
  rfl

theorem string_mapStr {s : Option Str} (hf : KeepsTexts f ms) (h : Course.string s ms) :
    Course.string (s.map f) (ms.map (Move.mapStr f)) := by
  cases h with
  | absent => exact .absent
  | @present s terminator hsize =>
    have hbytes : (f s).bytes = s.bytes := hf s List.mem_cons_self
    have hlength : (f s).length = s.length := congrArg List.length hbytes
    have h := Course.string.present terminator (hlength ▸ hsize : (f s).length + 1 < 1 <<< 64)
    rwa [hbytes, hlength] at h

theorem constant_mapStr {k : Value} (hf : KeepsTexts f ms) (h : Course.constant k ms) :
    Course.constant (k.mapStr f) (ms.map (Move.mapStr f)) := by
  cases h with
  | nil => exact .nil
  | boolean h =>
    rw [List.map_cons, flag_mapStr h]
    exact .boolean h
  | number x => exact .number x
  | string h => exact .string (string_mapStr (keepsTexts_cons.1 hf).2 h)

theorem upvalue_mapStr {u : Upvalue} (h : Course.upvalue u ms) :
    Course.upvalue (u.mapStr f) (ms.map (Move.mapStr f)) := by
  obtain ⟨a, ha, rfl⟩ := h
  rw [List.map_append, flag_mapStr ha]
  exact ⟨a, ha, rfl⟩

theorem localVar_mapStr {l : LocalVar} (hf : KeepsTexts f ms) (h : Course.localVar l ms) :
    Course.localVar (l.mapStr f) (ms.map (Move.mapStr f)) := by
  obtain ⟨a, b, c, ha, hb, hc, rfl⟩ := h
  rw [List.map_append, List.map_append, int_mapStr _ _ hb.2, int_mapStr _ _ hc.2]
  exact ⟨_, b, c, string_mapStr (keepsTexts_append.1 hf).1 ha, hb, hc, rfl⟩

theorem names_mapStr {us : List Upvalue} (hf : KeepsTexts f ms) (h : Course.names us ms) :
    Course.names (us.map (Upvalue.mapStr f)) (ms.map (Move.mapStr f)) := by
  obtain ⟨ns, n, parts, hcount, hparts, hnames, rfl⟩ := h
  obtain ⟨-, hf⟩ := keepsTexts_cons.1 hf
  have hstrings := forall₂_mapStr (fun s _ ms hf hs => string_mapStr hf hs) hf hparts
  have hall := congrArg (List.map (Option.map f)) hnames
  rw [List.map_map, List.map_append, List.map_replicate] at hall
  refine ⟨_, n, _, by rwa [List.length_map], hstrings, ?_, ?_⟩
  · rw [List.map_map]
    exact hall
  · rw [List.map_cons, List.map_flatten, List.length_map, List.length_map]
    rfl

theorem head_mapStr {h : Body} (hf : KeepsTexts f ms) (hh : Course.head h ms) :
    Course.head (h.mapStr f) (ms.map (Move.mapStr f)) := by
  obtain ⟨hline, hlast, hvararg, hcode, hconstants⟩ := hh
  obtain ⟨-, -, -, -, -, -, hfcode, hfconstants⟩ := keepsTexts_cons.1 hf |>.imp_right fun hf => by
    simpa only [keepsTexts_append] using hf
  simp only [List.map_cons, List.map_append, int_mapStr _ _ hline.2, int_mapStr _ _ hlast.2,
    flag_mapStr hvararg]
  exact .mk hline hlast hvararg (list_mapStr_self instruction_mapStr hfcode hcode)
    (list_mapStr (fun k _ ms hf hk => constant_mapStr hf hk) hfconstants hconstants)

theorem rest_mapStr {h : Body} (hf : KeepsTexts f ms) (hh : Course.rest h ms) :
    Course.rest (h.mapStr f) (ms.map (Move.mapStr f)) := by
  obtain ⟨hupvalues, hsource, hlines, hlocals, hnames⟩ := hh
  simp only [keepsTexts_append] at hf
  obtain ⟨hfu, hfs, hfn, hfl, hfnames⟩ := hf
  simp only [List.map_append]
  exact .mk (list_mapStr (fun u _ ms _ hu => upvalue_mapStr hu) hfu hupvalues)
    (string_mapStr hfs hsource) (list_mapStr_self int_mapStr hfn hlines)
    (list_mapStr (fun l _ ms hf hl => localVar_mapStr hf hl) hfl hlocals)
    (names_mapStr hfnames hnames)

theorem function_mapStr {p : Prototype} (hf : KeepsTexts f ms) (h : Course.function p ms) :
    Course.function (p.mapStr f) (ms.map (Move.mapStr f)) := by
  induction p generalizing ms with
  | mk body children ih =>
    obtain ⟨a, b, c, ha, hb, hc, rfl⟩ := Course.function_mk_iff.1 h
    obtain ⟨hfa, hf⟩ := keepsTexts_append.1 hf
    obtain ⟨hfb, hfc⟩ := keepsTexts_append.1 hf
    rw [Prototype.mapStr_mk, Course.function_mk_iff, List.map_append, List.map_append]
    exact ⟨_, _, _, head_mapStr hfa ha, list_mapStr (fun q hq ms hf => ih q hq hf) hfb hb,
      rest_mapStr hfc hc, rfl⟩

theorem chunk_mapStr {p : Prototype} (hf : KeepsTexts f ms) (h : Course.chunk p ms) :
    Course.chunk (p.mapStr f) (ms.map (Move.mapStr f)) := by
  obtain ⟨record, hrecord, rfl⟩ := h
  exact ⟨_, function_mapStr (keepsTexts_cons.1 hf).2 hrecord, rfl⟩

end MapStr

end Chunk

end LuaData
