import LuaData.Prototype

namespace LuaData

inductive Reason where
  | register
  | constant
  | upvalue
  | prototype
  | flag
  | jump
  | emptyRange
  | noResults
  | noLeader
  | unknownOpcode
  | endOfCode
  | noJump
  | noLoop
  | noExtraArg
  deriving DecidableEq, Inhabited

def Reason.message : Reason → String
  | register => "register out of range"
  | constant => "constant index out of range"
  | upvalue => "upvalue index out of range"
  | prototype => "prototype index out of range"
  | flag => "operand must be 0 or 1"
  | jump => "jump target out of range"
  | emptyRange => "empty concatenation range"
  | noResults => "vararg with no results"
  | noLeader => "instruction without its leader"
  | unknownOpcode => "unknown opcode"
  | endOfCode => "paired instruction at end of code"
  | noJump => "test not followed by JMP"
  | noLoop => "TFORCALL not followed by TFORLOOP"
  | noExtraArg => "missing EXTRAARG"

structure Fault where
  pc : Nat
  opcode : Option Opcode
  reason : Reason
  deriving DecidableEq, Inhabited

def Fault.display (f : Fault) : String :=
  let opcode := match f.opcode with
    | none => "None"
    | some o => "Some(" ++ o.label ++ ")"
  "BytecodeFault \x7b pc: " ++ toString f.pc ++ ", opcode: " ++ opcode ++ ", reason: \"" ++
    f.reason.message ++ "\" \x7d"

structure Bounds where
  maxStack : Nat
  constants : Nat
  upvalues : Nat
  prototypes : Nat
  codeLength : Nat
  deriving DecidableEq, Inhabited

inductive Demand where
  | register (r : Nat)
  | constant (k : Nat)
  | upvalue (u : Nat)
  | prototype (p : Nat)
  | flag (x : Nat)
  | jump (offset : Int)
  | nonempty (first last : Nat)
  | results (count : Nat)
  | leader
  deriving DecidableEq, Inhabited

namespace Demand

def isMet (bounds : Bounds) (pc : Nat) : Demand → Bool
  | register r => decide (r ≤ bounds.maxStack)
  | constant k => decide (k < bounds.constants)
  | upvalue u => decide (u < bounds.upvalues)
  | prototype p => decide (p < bounds.prototypes)
  | flag x => decide (x ≤ 1)
  | jump offset =>
    let target : Int := pc + 1 + offset
    decide (0 ≤ target ∧ target ≤ bounds.codeLength)
  | nonempty first last => decide (first < last)
  | results count => decide (count ≠ 1)
  | leader => false

def reason : Demand → Reason
  | register _ => .register
  | constant _ => .constant
  | upvalue _ => .upvalue
  | prototype _ => .prototype
  | flag _ => .flag
  | jump _ => .jump
  | nonempty _ _ => .emptyRange
  | results _ => .noResults
  | leader => .noLeader

def rk (x : Nat) : Demand :=
  match RK.ofOperand x with
  | .register r => register r
  | .constant k => constant k

end Demand

/-- What has to follow an instruction that fills more than one word. -/
inductive Follower where
  | extraArg
  | constantArg
  | jump
  | loop
  deriving DecidableEq, Inhabited

namespace Follower

def opcode : Follower → Opcode
  | extraArg | constantArg => .extraArg
  | jump => .jmp
  | loop => .tForLoop

def reason : Follower → Reason
  | extraArg | constantArg => .noExtraArg
  | jump => .noJump
  | loop => .noLoop

def demands (i : Instruction) : Follower → List Demand
  | extraArg => []
  | constantArg => [.constant i.ax]
  | jump => [.register i.a, .jump i.sbx]
  | loop => [.register (i.a + 1), .register i.a, .jump i.sbx]

end Follower

namespace Opcode

/-- The demands on the operands of an instruction, in the order in which they are tried. Of a span
of registers it is enough that the last one is in range. -/
def demands (i : Instruction) : Opcode → List Demand
  | move | unm | not | len => [.register i.a, .register i.b]
  | loadK => [.register i.a, .constant i.bx]
  | loadKX | newTable => [.register i.a]
  | loadBool => [.register i.a, .flag i.b, .flag i.c]
  | loadNil => [.register i.a, .register (i.a + i.b)]
  | getUpval | setUpval => [.register i.a, .upvalue i.b]
  | getTabUp => [.register i.a, .upvalue i.b, .rk i.c]
  | getTable => [.register i.a, .register i.b, .rk i.c]
  | self => [.register (i.a + 1), .register i.a, .register i.b, .rk i.c]
  | setTabUp => [.upvalue i.a, .rk i.b, .rk i.c]
  | setTable | add | sub | mul | div | mod | pow => [.register i.a, .rk i.b, .rk i.c]
  | concat => [.register i.a, .register i.b, .register i.c, .nonempty i.b i.c]
  | jmp => [.register i.a, .jump i.sbx]
  | eq | lt | le => [.flag i.a, .rk i.b, .rk i.c]
  | test => [.register i.a, .flag i.c]
  | testSet => [.register i.a, .register i.b, .flag i.c]
  | call =>
    [.register (if i.c ≤ 1 then i.a else i.a + i.c - 2),
      .register (if i.b ≤ 1 then i.a else i.a + i.b - 1)]
  | tailCall => [.register (if i.b ≤ 1 then i.a else i.a + i.b - 1)]
  | ret =>
    if i.b = 0 then [.register i.a]
    else if i.b = 1 then []
    else [.register (i.a + i.b - 2)]
  | forLoop => [.register (i.a + 3), .register i.a, .jump i.sbx]
  | forPrep => [.register (i.a + 2), .register i.a, .jump i.sbx]
  | tForCall => [.register i.a, .register (i.a + 2), .register (i.a + i.c + 2)]
  | setList => [.register (if i.b = 0 then i.a else i.a + i.b)]
  | closure => [.register i.a, .prototype i.bx]
  | vararg =>
    if i.b = 0 then [.register i.a] else [.register i.a, .results i.b, .register (i.a + i.b - 2)]
  | tForLoop | extraArg => [.leader]

def follower (i : Instruction) : Opcode → Option Follower
  | loadKX => some .constantArg
  | setList => if i.c = 0 then some .extraArg else none
  | eq | lt | le | test | testSet => some .jump
  | tForCall => some .loop
  | _ => none

end Opcode

namespace Bounds

def unmet (bounds : Bounds) (pc : Nat) (o : Opcode) (demands : List Demand) : Option Fault :=
  (demands.find? fun d => !d.isMet bounds pc).map fun d => ⟨pc, some o, d.reason⟩

def leaderFault (bounds : Bounds) (pc : Nat) (i : Instruction) : Option Fault :=
  match i.opcode? with
  | none => some ⟨pc, none, .unknownOpcode⟩
  | some o => bounds.unmet pc o (o.demands i)

def followerFault (bounds : Bounds) (pc : Nat) (f : Follower) (i : Instruction) : Option Fault :=
  if i.opcode? = some f.opcode then bounds.unmet pc f.opcode (f.demands i)
  else some ⟨pc, i.opcode?, f.reason⟩

def followerOf (i : Instruction) : Option Follower := i.opcode?.bind (Opcode.follower i)

/-- The first fault of code that starts at `pc`. An instruction and its follower are one unit. -/
def faultFrom (bounds : Bounds) : Nat → List Instruction → Option Fault
  | _, [] => none
  | pc, i :: rest =>
    match bounds.leaderFault pc i with
    | some fault => some fault
    | none =>
      match followerOf i with
      | none => bounds.faultFrom (pc + 1) rest
      | some f =>
        match rest with
        | [] => some ⟨pc, i.opcode?, .endOfCode⟩
        | j :: rest =>
          match bounds.followerFault (pc + 1) f j with
          | some fault => some fault
          | none => bounds.faultFrom (pc + 2) rest

end Bounds

def Body.bounds (f : Body) (childCount : Nat) : Bounds where
  maxStack := f.maxStack.toNat
  constants := f.constants.length
  upvalues := f.upvalues.length
  prototypes := childCount
  codeLength := f.code.length

def Body.fault? (f : Body) (childCount : Nat) : Option Fault :=
  (f.bounds childCount).faultFrom 0 f.code

def Prototype.fault? (p : Prototype) : Option Fault := p.body.fault? p.children.length

end LuaData
