import GateNet.File.Error
import GateNet.Circuit.Error

/-!
Access to files. What is read and written is the same wherever the files are, so a host is the pair of
operations that reading a path and writing to it are there; text is what its bytes encode.
-/

namespace GateNet

/-- How files are read and written in `m`. -/
structure Host (m : Type → Type) where
  read : String → m (Except FileError ByteArray)
  write : String → String → m (Except FileError Unit)

namespace Host

variable {m : Type → Type} [Monad m]

/-- Bytes as text. -/
def decode (bytes : ByteArray) : Except FileError String :=
  match String.fromUTF8? bytes with
  | some text => .ok text
  | none => .error .notText

/-- The text of a file. -/
def readText (host : Host m) (path : String) : m (Except CircuitError String) := do
  let bytes ← host.read path
  return (bytes.bind decode).mapError fun reason => .general (.inaccessible path reason)

/-- Make a file hold the text. -/
def writeText (host : Host m) (path text : String) : m (Except CircuitError Unit) := do
  let written ← host.write path text
  return written.mapError fun reason => .general (.inaccessible path reason)

end Host

end GateNet
