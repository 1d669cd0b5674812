import LuaData.Chunk.Layout
import LuaData.Proofs.Chunk.Canonical
import Mathlib.Data.List.Forall2

namespace LuaData.Chunk

/-- Which bytes stand for which value. -/
abbrev Form (α : Type) := α → List UInt8 → Prop

namespace Form

def int : Form Int32 := fun n bytes => bytes = littleEndian 4 n.toUInt32.toNat

def field : Form Int32 := fun n bytes => 0 ≤ n ∧ int n bytes

def flag : Form Bool := fun b bytes => ∃ x : UInt8, b = (x != 0) ∧ bytes = [x]

def instruction : Form Instruction := fun i bytes => bytes = littleEndian 4 i.word.toNat

/-- A string behind its size, to which a byte after the string counts. The size 0 stands for an
absent string. -/
inductive string : Option Str → List UInt8 → Prop
  | absent : string none (littleEndian 8 0)
  | present {content : List UInt8} (terminator : UInt8) (hsize : content.length + 1 < 1 <<< 64) :
    string (some (.ofContent content))
      (littleEndian 8 (content.length + 1) ++ (content ++ [terminator]))

inductive constant : Value → List UInt8 → Prop
  | nil : constant .nil [0]
  | boolean {b : Bool} {bytes : List UInt8} : flag b bytes → constant (.boolean b) (1 :: bytes)
  | number (x : Number) : constant (.number x) (3 :: littleEndian 8 x.bits.toNat)
  | string {s : Str} {bytes : List UInt8} :
    Form.string (some s) bytes → constant (.string s) (4 :: bytes)

def list {α : Type} (form : Form α) : Form (List α) := fun xs bytes =>
  xs.length ≤ maxCount ∧ ∃ records, List.Forall₂ form xs records ∧
    bytes = littleEndian 4 xs.length ++ records.flatten

def upvalue : Form Upvalue := fun u bytes =>
  u.name = none ∧ ∃ a, flag u.isLocal a ∧ bytes = a ++ [u.index]

def localVar : Form LocalVar := fun l bytes =>
  ∃ a b c, string l.name a ∧ field l.startPc b ∧ field l.endPc c ∧ bytes = a ++ (b ++ c)

inductive head (f : Body) : List UInt8 → Prop
  | mk {line last isVararg code constants : List UInt8} :
    field f.lineDefined line → field f.lastLineDefined last → flag f.isVararg isVararg →
    list instruction f.code code → list constant f.constants constants →
    head f (line ++ (last ++ ([f.paramCount] ++ (isVararg ++ ([f.maxStack] ++
      (code ++ constants))))))

/-- The part of a function after its nested functions. The upvalues beyond those that are named have
no name. -/
inductive rest (f : Body) : List UInt8 → Prop
  | mk {upvalues source lines locals names : List UInt8} {named : List (Option Str)}
      {unnamed : Nat} :
    list upvalue (f.upvalues.map Upvalue.unnamed) upvalues → string f.source source →
    list int f.lines lines → list localVar f.locals locals → list string named names →
    f.upvalues.map Upvalue.name = named ++ List.replicate unnamed none →
    rest f (upvalues ++ (source ++ (lines ++ (locals ++ names))))

inductive function : Prototype → List UInt8 → Prop
  | mk {f : Body} {children : List Prototype} {a c : List UInt8} {records : List (List UInt8)} :
    head f a → children.length ≤ maxCount → List.Forall₂ function children records → rest f c →
    function (.mk f children) (a ++ (littleEndian 4 children.length ++ records.flatten ++ c))

theorem function_mk_iff {f : Body} {children : List Prototype} {bytes : List UInt8} :
    function (.mk f children) bytes ↔
      ∃ a b c, head f a ∧ list function children b ∧ rest f c ∧ bytes = a ++ (b ++ c) := by
  constructor
  · rintro ⟨ha, hcount, hrecords, hc⟩
    exact ⟨_, _, _, ha, ⟨hcount, _, hrecords, rfl⟩, hc, rfl⟩
  · rintro ⟨a, b, c, ha, ⟨hcount, records, hrecords, rfl⟩, hc, rfl⟩
    exact .mk ha hcount hrecords hc

def chunk : Form Prototype := fun p bytes => ∃ record, function p record ∧ bytes = header ++ record

end Form

end LuaData.Chunk
