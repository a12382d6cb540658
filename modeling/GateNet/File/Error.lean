/-!
Why a file could not be read or written.
-/

namespace GateNet

/-- The reason for which a file is inaccessible. -/
inductive FileError where
  /-- The system refused, with its own text and number. -/
  | system (reason : String) (code : Nat)
  /-- The contents are not text. -/
  | notText
deriving DecidableEq

namespace FileError

/-- The refusal for a path that leads nowhere. -/
def notFound : FileError := .system "No such file or directory" 2

/-- The refusal to treat a directory as a file. -/
def isDirectory : FileError := .system "Is a directory" 21

/-- The refusal to look for a file inside another one. -/
def notDirectory : FileError := .system "Not a directory" 20

/-- The refusal of a path or of a name in it for its length. -/
def nameTooLong : FileError := .system "File name too long" 36

/-- The text of a file error. -/
def message : FileError → String
  | .system reason code => s!"{reason} (os error {code})"
  | .notText => "stream did not contain valid UTF-8"

end FileError

end GateNet
