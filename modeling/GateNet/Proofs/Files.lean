import GateNet.File.Directory

/-!
Texts in files. A text is read from a path if the bytes found there are its own, and whether a text can be
written is told by the host. In a directory the paths of plain files can be written: such a path gives
back what was written to it, and the files of other names keep what they hold.
-/

namespace GateNet

namespace Host

variable {σ : Type} {host : Host (StateM σ)} {s : σ} {path text : String}

/-- A text is decoded from its own bytes. -/
theorem decode_toUTF8 (text : String) : decode text.toUTF8 = .ok text := by
  rw [decode, String.fromUTF8?, String.toUTF8, dif_pos text.isValidUTF8]
  rfl

theorem readText_ok (h : (host.read path s).1 = .ok text.toUTF8) :
    host.readText path s = (.ok text, (host.read path s).2) := by
  show ((((host.read path s).1).bind decode).mapError _, (host.read path s).2) = _
  rw [h]
  show ((decode text.toUTF8).mapError _, _) = _
  rw [decode_toUTF8]
  rfl

theorem writeText_eq (host : Host (StateM σ)) (path text : String) (s : σ) :
    host.writeText path text s =
      ((host.write path text s).1.mapError fun e => .general (.inaccessible path e),
        (host.write path text s).2) := rfl

end Host

namespace Directory

variable {d : Directory} {path m n : String}

/-- The path leads to the file of this name in the directory: it stays where it is until it comes to the
name, and the name is not too long. -/
structure Locates (path name : String) : Prop where
  parse : ∃ folders, Path.parse path = .ok ⟨false, folders, some name, false⟩ ∧ ∀ f ∈ folders, f = "."
  short : name.utf8ByteSize ≤ Path.longestName

/-- A walk through nothing but steps that stay ends where it starts. -/
theorem foldlM_enter (d : Directory) (place : Place) :
    ∀ {folders : List String}, (∀ f ∈ folders, f = ".") → folders.foldlM d.enter place = .ok place
  | [], _ => rfl
  | f :: folders, h => by
    have henter : d.enter place f = .ok place := if_pos (h f (.head _))
    rw [List.foldlM_cons, henter]
    exact foldlM_enter d place fun g hg => h g (.tail _ hg)

namespace Locates

theorem checkName_ok (h : Locates path n) : checkName n = .ok () := if_neg (Nat.not_lt.mpr h.short)

/-- The file of the name is read. -/
theorem read (h : Locates path n) (d : Directory) :
    d.read path = (d.get? n).elim (.error .notFound) .ok := by
  obtain ⟨folders, hparse, hfolders⟩ := h.parse
  have hwalk : d.walk ⟨false, folders, some n, false⟩ = .ok .inside := foldlM_enter d .inside hfolders
  simp only [Directory.read, hparse, hwalk, h.checkName_ok, bind, Except.bind, entry?]
  cases d.get? n <;> rfl

/-- The file of the name is written. -/
theorem write (h : Locates path n) (d : Directory) (text : String) :
    d.write path text = .ok (d.put n text.toUTF8) := by
  obtain ⟨folders, hparse, hfolders⟩ := h.parse
  have hwalk : d.walk ⟨false, folders, some n, false⟩ = .ok .inside := foldlM_enter d .inside hfolders
  simp only [Directory.write, hparse, hwalk, h.checkName_ok, bind, Except.bind]
  rfl

theorem host_write (h : Locates path n) (d : Directory) (text : String) :
    host.write path text d = (.ok (), d.put n text.toUTF8) := by
  simp only [host, h.write]

/-- What was written last is read. -/
theorem read_put_self (h : Locates path n) (d : Directory) (contents : ByteArray) :
    (d.put n contents).read path = .ok contents := by
  rw [h.read, get?_put, if_pos rfl]
  rfl

/-- A file of another name can be written without a difference. -/
theorem read_put_of_ne (h : Locates path m) (hne : m ≠ n) (d : Directory) (contents : ByteArray) :
    (d.put n contents).read path = d.read path := by
  rw [h.read, h.read, get?_put, if_neg hne]

end Locates

end Directory

end GateNet
