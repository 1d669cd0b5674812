import LuaData.Number.Decimal
import LuaData.Str
import LuaData.Text.Quoted
import LuaData.Text.Utf8

namespace LuaData

inductive ObjectKind where
  | table | function | userdata | thread
  deriving DecidableEq, Inhabited

namespace ObjectKind

def rank : ObjectKind → Nat
  | table => 0
  | function => 1
  | userdata => 2
  | thread => 3

def label : ObjectKind → String
  | table => "Table"
  | function => "Function"
  | userdata => "Userdata"
  | thread => "Thread"

end ObjectKind

structure ObjectId where
  kind : ObjectKind
  index : UInt32
  deriving DecidableEq, Inhabited

inductive Value where
  | nil
  | boolean (b : Bool)
  | number (x : Number)
  | string (s : Str)
  | lightUserdata (p : UInt64)
  | native (entry : UInt64)
  | object (o : ObjectId)
  deriving DecidableEq, Inhabited

namespace Value

def isNil : Value → Bool
  | nil => true
  | _ => false

def isCollectable : Value → Bool
  | string _ | object _ => true
  | _ => false

def integer (n : Int) : Value := number (Number.ofInt n)

def toInteger? : Value → Option Int
  | number x => x.toInteger?
  | _ => none

def equal : Value → Value → Bool
  | nil, nil => true
  | boolean a, boolean b => a == b
  | number a, number b => a.equal b
  | string a, string b => a.equal b
  | lightUserdata a, lightUserdata b => a == b
  | native a, native b => a == b
  | object a, object b => decide (a = b)
  | _, _ => false

/-- The tag of the basic type, shared with the constants of precompiled chunks. -/
def tag : Value → Nat
  | nil => 0
  | boolean _ => 1
  | lightUserdata _ => 2
  | number _ => 3
  | string _ => 4
  | native _ => 6
  | object o =>
    match o.kind with
    | .table => 5
    | .function => 6
    | .userdata => 7
    | .thread => 8

def typeName : Value → String
  | nil => "nil"
  | boolean _ => "boolean"
  | lightUserdata _ => "userdata"
  | number _ => "number"
  | string _ => "string"
  | native _ => "function"
  | object o =>
    match o.kind with
    | .table => "table"
    | .function => "function"
    | .userdata => "userdata"
    | .thread => "thread"

def display (v : Value) : String :=
  match v with
  | nil => "nil"
  | boolean true => "true"
  | boolean false => "false"
  | number x => x.text
  | string s => Text.quote (Text.Utf8.decode s.bytes)
  | lightUserdata p => "userdata: 0x" ++ Text.hex p.toNat
  | native entry => "function: builtin: 0x" ++ Text.hex entry.toNat
  | object o => v.typeName ++ ": " ++ o.kind.label ++ "#" ++ toString o.index.toNat

end Value

end LuaData
