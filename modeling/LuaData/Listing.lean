import LuaData.Chunk.Load

namespace LuaData.Listing

def alignRight (width : Nat) (s : String) : String :=
  String.ofList (List.replicate (width - s.length) ' ') ++ s

def alignLeft (width : Nat) (s : String) : String :=
  s ++ String.ofList (List.replicate (width - s.length) ' ')

def operand (x : Nat) : String :=
  match RK.ofOperand x with
  | .register r => toString r
  | .constant k => "K" ++ toString k

def words (xs : List String) : String := " ".intercalate xs

def operands (i : Instruction) (o : Opcode) : String :=
  let a := toString i.a
  match o.layout with
  | .abx => words [a, toString i.bx]
  | .asbx => words [a, toString i.sbx]
  | .ax => toString i.ax
  | .abc =>
    match o with
    | .move | .unm | .not | .len | .loadNil | .getUpval | .setUpval | .ret | .vararg =>
      words [a, toString i.b]
    | .tForCall => words [a, toString i.c]
    | .getTabUp | .getTable | .self => words [a, toString i.b, operand i.c]
    | .setTabUp | .setTable | .add | .sub | .mul | .div | .mod | .pow | .eq | .lt | .le =>
      words [a, operand i.b, operand i.c]
    | _ => words [a, toString i.b, toString i.c]

def detail (i : Instruction) : String :=
  match i.opcode? with
  | some o => alignLeft 9 o.mnemonic ++ " " ++ operands i o
  | none => s!"<opcode {i.opcodeNumber}>"

def name (s : Option Str) : String :=
  match s with
  | some s => String.ofList (Text.Utf8.decode s.bytes)
  | none => ""

def part {α : Type} (indent title : String) (xs : List α) (line : Nat → α → String) : List String :=
  if xs.isEmpty then []
  else
    "" :: (indent ++ title ++ s!" ({xs.length}):") ::
      xs.zipIdx.map fun (x, n) => indent ++ "  " ++ s!"{n} = " ++ line n x

def codeLine (f : Body) (pc : Nat) (i : Instruction) : String :=
  let line := match f.lineAt pc with
    | some n => s!"[{n.toInt}]"
    | none => "[-]"
  alignRight 4 (toString (pc + 1)) ++ " " ++ alignRight 6 line ++ " " ++ detail i

def bodyLines (f : Body) (indent title : String) : List String :=
  [indent ++ "=== " ++ title ++ " ===",
    indent ++ s!"lines: {f.lineDefined.toInt}-{f.lastLineDefined.toInt}, " ++
      s!"params: {f.paramCount}, vararg: {f.isVararg}, max_stack: {f.maxStack}",
    ""] ++
    f.code.zipIdx.map (fun (i, pc) => indent ++ codeLine f pc i) ++
    part indent "constants" f.constants (fun _ k => k.display) ++
    part indent "locals" f.locals (fun _ l =>
      name l.name ++ s!" [{l.startPc.toInt}, {l.endPc.toInt})") ++
    part indent "upvalues" f.upvalues (fun _ u =>
      name u.name ++ (if u.isLocal then " local" else " upvalue") ++ s!" index={u.index}")

def indentation (depth : Nat) : String := String.ofList (List.replicate (2 * depth) ' ')

mutual

def lines (title : String) (depth : Nat) : Prototype → List String
  | .mk body children =>
    bodyLines body (indentation depth) title ++
      (if children.isEmpty then [] else [""]) ++ linesOfAll depth 0 children

def linesOfAll (depth i : Nat) : List Prototype → List String
  | [] => []
  | p :: ps => lines s!"function <PROTO[{i}]>" (depth + 1) p ++ linesOfAll depth (i + 1) ps

end

def unlines (ls : List String) : String := String.join (ls.map fun l => l ++ "\n")

structure Output where
  code : UInt32
  out : String
  err : String
  deriving DecidableEq, Inhabited

def ofChunk (file : String) (bytes : List UInt8) : Output :=
  match (Chunk.load (Collector.new 1 Collector.unlimited) ("@" ++ file) bytes).1 with
  | .ok f =>
    { code := 0
      out := "=== File: " ++ file ++ " ===\n\n" ++ unlines (lines "main" 0 f.prototype)
      err := "" }
  | .error e => { code := 1, out := "", err := "Load error: " ++ e.message ++ "\n" }

/-- Runs the command on its arguments. A file is read at most once; all but the first argument are
ignored. -/
def run {m : Type → Type} [Monad m] (read : String → m (Except String (List UInt8)))
    (args : List String) : m Output :=
  match args with
  | [] => return { code := 0, out := "Usage: chunk_inspect <chunk.luac>\n", err := "" }
  | file :: _ => do
    match ← read file with
    | .ok bytes => return ofChunk file bytes
    | .error e =>
      return { code := 1, out := "", err := "Error reading file '" ++ file ++ "': " ++ e ++ "\n" }

end LuaData.Listing
