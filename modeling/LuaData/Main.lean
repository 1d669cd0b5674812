import LuaData.Listing

namespace LuaData

def readFailure : IO.Error → String
  | .noFileOrDirectory _ code text | .permissionDenied _ code text
  | .inappropriateType _ code text | .invalidArgument _ code text
  | .interrupted _ code text | .resourceExhausted _ code text | .noSuchThing _ code text
  | .hardwareFault code text | .otherError code text => s!"{text} (os error {code})"
  | e => toString e

def readBytes (file : String) : IO (Except String (List UInt8)) := do
  match ← (IO.FS.withFile file .read fun h => h.readBinToEnd).toBaseIO with
  | .ok bytes => return .ok bytes.toList
  | .error e => return .error (readFailure e)

end LuaData

def main (args : List String) : IO UInt32 := do
  let output ← LuaData.Listing.run LuaData.readBytes args
  IO.print output.out
  IO.eprint output.err
  return output.code
