namespace LuaData

inductive Layout where
  | abc | abx | asbx | ax
  deriving DecidableEq, Inhabited

namespace Layout

def label : Layout → String
  | abc => "IABC"
  | abx => "IABx"
  | asbx => "IAsBx"
  | ax => "IAx"

end Layout

/-- The operations of the virtual machine. `R` are registers, `K` constants, `U` upvalues, and
`RK(x)` is the constant `x - 256` or the register `x`. A jump counts from the word after its own. -/
inductive Opcode where
  /-- MOVE: `R(A) := R(B)`. -/
  | move
  /-- LOADK: `R(A) := K(Bx)`. -/
  | loadK
  /-- LOADKX: `R(A) := K(Ax of the next word)`. -/
  | loadKX
  /-- LOADBOOL: `R(A) := B ≠ 0`, and skips a word if `C ≠ 0`. -/
  | loadBool
  /-- LOADNIL: `R(A), …, R(A+B) := nil`. -/
  | loadNil
  /-- GETUPVAL: `R(A) := U(B)`. -/
  | getUpval
  /-- GETTABUP: `R(A) := U(B)[RK(C)]`. -/
  | getTabUp
  /-- GETTABLE: `R(A) := R(B)[RK(C)]`. -/
  | getTable
  /-- SETTABUP: `U(A)[RK(B)] := RK(C)`. -/
  | setTabUp
  /-- SETUPVAL: `U(B) := R(A)`. -/
  | setUpval
  /-- SETTABLE: `R(A)[RK(B)] := RK(C)`. -/
  | setTable
  /-- NEWTABLE: `R(A) :=` a new table sized by `B` and `C`. -/
  | newTable
  /-- SELF: `R(A+1) := R(B); R(A) := R(B)[RK(C)]`. -/
  | self
  /-- ADD: `R(A) := RK(B) + RK(C)`. -/
  | add
  /-- SUB: `R(A) := RK(B) - RK(C)`. -/
  | sub
  /-- MUL: `R(A) := RK(B) * RK(C)`. -/
  | mul
  /-- DIV: `R(A) := RK(B) / RK(C)`. -/
  | div
  /-- MOD: `R(A) := RK(B) % RK(C)`. -/
  | mod
  /-- POW: `R(A) := RK(B) ^ RK(C)`. -/
  | pow
  /-- UNM: `R(A) := -R(B)`. -/
  | unm
  /-- NOT: `R(A) := not R(B)`. -/
  | not
  /-- LEN: `R(A) :=` the length of `R(B)`. -/
  | len
  /-- CONCAT: `R(A) := R(B) .. … .. R(C)`. -/
  | concat
  /-- JMP: `pc += sBx`, and closes the upvalues from `R(A-1)` on if `A ≠ 0`. -/
  | jmp
  /-- EQ: skips a word unless `(RK(B) = RK(C)) = A`. -/
  | eq
  /-- LT: skips a word unless `(RK(B) < RK(C)) = A`. -/
  | lt
  /-- LE: skips a word unless `(RK(B) ≤ RK(C)) = A`. -/
  | le
  /-- TEST: skips a word unless the truth of `R(A)` is `C`. -/
  | test
  /-- TESTSET: `R(A) := R(B)` if the truth of `R(B)` is `C`, else skips a word. -/
  | testSet
  /-- CALL: `R(A), …, R(A+C-2) := R(A)(R(A+1), …, R(A+B-1))`. -/
  | call
  /-- TAILCALL: returns `R(A)(R(A+1), …, R(A+B-1))`. -/
  | tailCall
  /-- RETURN: returns `R(A), …, R(A+B-2)`. -/
  | ret
  /-- FORLOOP: `R(A) += R(A+2)`; while that is within `R(A+1)`, `R(A+3) := R(A); pc += sBx`. -/
  | forLoop
  /-- FORPREP: `R(A) -= R(A+2); pc += sBx`. -/
  | forPrep
  /-- TFORCALL: `R(A+3), …, R(A+2+C) := R(A)(R(A+1), R(A+2))`. -/
  | tForCall
  /-- TFORLOOP: if `R(A+1)` is not nil, `R(A) := R(A+1); pc += sBx`. -/
  | tForLoop
  /-- SETLIST: stores `R(A+1), …, R(A+B)` into `R(A)` under consecutive keys chosen by `C`. -/
  | setList
  /-- CLOSURE: `R(A) :=` a closure of the nested prototype `Bx`. -/
  | closure
  /-- VARARG: `R(A), …, R(A+B-2) :=` the variable arguments. -/
  | vararg
  /-- EXTRAARG: the wide argument of the word before it. -/
  | extraArg
  deriving DecidableEq, Inhabited

namespace Opcode

def all : List Opcode :=
  [move, loadK, loadKX, loadBool, loadNil, getUpval, getTabUp, getTable, setTabUp, setUpval,
    setTable, newTable, self, add, sub, mul, div, mod, pow, unm, not, len, concat, jmp, eq, lt,
    le, test, testSet, call, tailCall, ret, forLoop, forPrep, tForCall, tForLoop, setList,
    closure, vararg, extraArg]

def number (o : Opcode) : Nat := all.idxOf o

def ofNumber? (n : Nat) : Option Opcode := all[n]?

def mnemonic : Opcode → String
  | move => "MOVE"
  | loadK => "LOADK"
  | loadKX => "LOADKX"
  | loadBool => "LOADBOOL"
  | loadNil => "LOADNIL"
  | getUpval => "GETUPVAL"
  | getTabUp => "GETTABUP"
  | getTable => "GETTABLE"
  | setTabUp => "SETTABUP"
  | setUpval => "SETUPVAL"
  | setTable => "SETTABLE"
  | newTable => "NEWTABLE"
  | self => "SELF"
  | add => "ADD"
  | sub => "SUB"
  | mul => "MUL"
  | div => "DIV"
  | mod => "MOD"
  | pow => "POW"
  | unm => "UNM"
  | not => "NOT"
  | len => "LEN"
  | concat => "CONCAT"
  | jmp => "JMP"
  | eq => "EQ"
  | lt => "LT"
  | le => "LE"
  | test => "TEST"
  | testSet => "TESTSET"
  | call => "CALL"
  | tailCall => "TAILCALL"
  | ret => "RETURN"
  | forLoop => "FORLOOP"
  | forPrep => "FORPREP"
  | tForCall => "TFORCALL"
  | tForLoop => "TFORLOOP"
  | setList => "SETLIST"
  | closure => "CLOSURE"
  | vararg => "VARARG"
  | extraArg => "EXTRAARG"

def label : Opcode → String
  | move => "Move"
  | loadK => "LoadK"
  | loadKX => "LoadKX"
  | loadBool => "LoadBool"
  | loadNil => "LoadNil"
  | getUpval => "GetUpval"
  | getTabUp => "GetTabUp"
  | getTable => "GetTable"
  | setTabUp => "SetTabUp"
  | setUpval => "SetUpval"
  | setTable => "SetTable"
  | newTable => "NewTable"
  | self => "Self_"
  | add => "Add"
  | sub => "Sub"
  | mul => "Mul"
  | div => "Div"
  | mod => "Mod"
  | pow => "Pow"
  | unm => "Unm"
  | not => "Not"
  | len => "Len"
  | concat => "Concat"
  | jmp => "Jmp"
  | eq => "Eq"
  | lt => "Lt"
  | le => "Le"
  | test => "Test"
  | testSet => "TestSet"
  | call => "Call"
  | tailCall => "TailCall"
  | ret => "Return"
  | forLoop => "ForLoop"
  | forPrep => "ForPrep"
  | tForCall => "TForCall"
  | tForLoop => "TForLoop"
  | setList => "SetList"
  | closure => "Closure"
  | vararg => "Vararg"
  | extraArg => "ExtraArg"

def layout : Opcode → Layout
  | loadK | loadKX | closure => .abx
  | jmp | forLoop | forPrep | tForLoop => .asbx
  | extraArg => .ax
  | _ => .abc

end Opcode

end LuaData
