import GateNet.Command.Execution

/-!
The program on the files of the system.
-/

namespace GateNet

/-- Why the system refused, as a file error. -/
def FileError.ofSystem : IO.Error → FileError
  | .noFileOrDirectory _ code details => .system details code.toNat
  | .permissionDenied _ code details => .system details code.toNat
  | .inappropriateType _ code details => .system details code.toNat
  | .invalidArgument _ code details => .system details code.toNat
  | .resourceExhausted _ code details => .system details code.toNat
  | .otherError code details => .system details code.toNat
  | e => .system (toString e) 0

/-- The files of the system. -/
def systemHost : Host IO where
  read path := do
    try return .ok (← IO.FS.withFile path .read fun file => file.readBinToEnd)
    catch e => return .error (.ofSystem e)
  write path text := do
    try
      IO.FS.writeFile path text
      return .ok ()
    catch e => return .error (.ofSystem e)

end GateNet

def main (args : List String) : IO UInt32 := do
  let exit ← GateNet.Command.perform GateNet.systemHost args
  IO.print exit.output
  IO.eprint exit.failures
  return exit.code.toUInt32
