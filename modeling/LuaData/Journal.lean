namespace LuaData

inductive Level where
  | trace | debug | warn
  deriving DecidableEq, Inhabited

def Level.label : Level → String
  | trace => "TRACE"
  | debug => "DEBUG"
  | warn => "WARN"

structure Message where
  level : Level
  text : String
  deriving DecidableEq, Inhabited

def Message.line (m : Message) : String := m.level.label ++ " " ++ m.text

end LuaData
