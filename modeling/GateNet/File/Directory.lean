import GateNet.File.Host
import GateNet.File.Path

/-!
A directory of plain files, as a host. It has no folders inside, and the folders around it are out of
sight: they can be gone through, nothing is found in them, and what is written there is not seen again.
A path is walked folder by folder, so the first name that cannot be entered decides how it is refused.
-/

namespace GateNet

/-- The files of a directory by name. -/
structure Directory where
  files : List (String × ByteArray) := []

namespace Directory

/-- The contents of a file. -/
def get? (d : Directory) (name : String) : Option ByteArray := d.files.lookup name

/-- The directory with one file replaced or added. -/
def put (d : Directory) (name : String) (contents : ByteArray) : Directory :=
  ⟨(name, contents) :: d.files.filter (fun file => file.1 != name)⟩

/-! ### Walking a path -/

/-- The folders in which a walk can stand. -/
inductive Place where
  /-- The directory itself. -/
  | inside
  /-- A folder around it. -/
  | outside
deriving DecidableEq

/-- The contents of an entry of a folder. -/
def entry? (d : Directory) (name : String) : Place → Option ByteArray
  | .inside => d.get? name
  | .outside => none

/-- What may be looked for in a folder. -/
def checkName (name : String) : Except FileError Unit :=
  if Path.longestName < name.utf8ByteSize then .error .nameTooLong else .ok ()

/-- Go from a folder to the one of a name. No entry is a folder, so only the two steps lead to one. -/
def enter (d : Directory) (place : Place) (name : String) : Except FileError Place :=
  if name = "." then .ok place
  else if name = ".." then .ok .outside
  else do
    checkName name
    match d.entry? name place with
    | some _ => throw .notDirectory
    | none => throw .notFound

/-- The folder that a path leads through last. -/
def walk (d : Directory) (path : Path) : Except FileError Place :=
  path.folders.foldlM d.enter (if path.absolute then .outside else .inside)

/-- Read a file. -/
def read (d : Directory) (text : String) : Except FileError ByteArray := do
  let path ← Path.parse text
  let place ← d.walk path
  match path.entry with
  | none => throw .isDirectory
  | some name =>
    checkName name
    match d.entry? name place with
    | none => throw .notFound
    | some contents => if path.slash then throw .notDirectory else return contents

/-- Write a file, which need not be there but cannot be a folder. -/
def write (d : Directory) (text contents : String) : Except FileError Directory := do
  let path ← Path.parse text
  let place ← d.walk path
  match path.entry with
  | none => throw .isDirectory
  | some name =>
    if path.slash then
      throw .isDirectory
    else
      checkName name
      match place with
      | .inside => return d.put name contents.toUTF8
      | .outside => return d

/-- The directory as a host, which writing changes. -/
def host : Host (StateM Directory) where
  read path := fun d => (d.read path, d)
  write path contents := fun d =>
    match d.write path contents with
    | .ok d' => (.ok (), d')
    | .error e => (.error e, d)

/-! ### What writing does to the files -/

/-- A file that is put holds what was put, and every other file what it held. -/
theorem get?_put (d : Directory) (name other : String) (contents : ByteArray) :
    (d.put name contents).get? other = if other = name then some contents else d.get? other := by
  by_cases h : other = name
  · simp [put, get?, h]
  · have apart : (other == name) = false := by simpa using h
    have rest : (d.files.filter fun file => file.1 != name).lookup other = d.files.lookup other := by
      induction d.files with
      | nil => rfl
      | cons file files ih =>
        obtain ⟨key, bytes⟩ := file
        by_cases hk : key = name
        · subst hk
          simp [List.lookup_cons, ih, apart]
        · simp [List.lookup_cons, ih, hk]
    simp [put, get?, List.lookup_cons, h, apart, rest]

end Directory

end GateNet
