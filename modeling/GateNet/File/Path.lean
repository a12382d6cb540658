import GateNet.File.Error
import GateNet.Text.Split

/-!
Paths. A path is cut at its slashes; the names before the last one are folders to go through, and the
last one is the entry that the path is about. A path that ends in a dot or in two dots, or has no name
at all, is about no entry: it ends in the folder that it has come to.
-/

namespace GateNet

/-- A path, taken apart. -/
structure Path where
  /-- It starts at the root of all folders, and otherwise where the program works. -/
  absolute : Bool
  /-- The folders to go through, in order. -/
  folders : List String
  /-- The entry of the last folder, if the path is about one. -/
  entry : Option String
  /-- A slash follows the entry, which then has to be a folder. -/
  slash : Bool
deriving DecidableEq

namespace Path

/-- The longest path, in bytes. -/
def longestPath : Nat := 4095

/-- The longest name of an entry, in bytes. -/
def longestName : Nat := 255

/-- The name of a folder that every folder knows: itself or the one around it. -/
def isStep (name : String) : Bool := name = "." ∨ name = ".."

/-- The names in a path. -/
def names (text : List Char) : List String :=
  ((Text.fields '/' text).filter (!·.isEmpty)).map String.ofList

/-- The parts of a path. -/
def ofText (text : String) : Path :=
  let absolute := text.toList.head? == some '/'
  let slash := text.toList.getLast? == some '/'
  let names := names text.toList
  match names.getLast? with
  | some name =>
    if isStep name then ⟨absolute, names, none, slash⟩
    else ⟨absolute, names.dropLast, some name, slash⟩
  | none => ⟨absolute, [], none, slash⟩

/-- The parts of a path that is neither empty nor too long. -/
def parse (text : String) : Except FileError Path :=
  if text = "" then .error .notFound
  else if longestPath < text.utf8ByteSize then .error .nameTooLong
  else .ok (ofText text)

end Path

end GateNet
