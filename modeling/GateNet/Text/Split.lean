import GateNet.Text.Blank

/-!
Cutting text into lines, lines into words and words into fields. The three differ in what they do with
an empty piece: a text that ends in a line feed has no further line, words are never empty, and fields
may be, so that a word has one field more than it has separators.
-/

namespace GateNet.Text

/-- The lines read so far, last one first, and the characters of the line being read, last one first. -/
structure LineScan where
  done : List (List Char) := []
  current : List Char := []

namespace LineScan

/-- A finished line loses one carriage return before its line feed. -/
def finish : List Char → List Char
  | '\r' :: rest => rest.reverse
  | line => line.reverse

/-- Read one more character. -/
def step (scan : LineScan) (c : Char) : LineScan :=
  if c = '\n' then ⟨finish scan.current :: scan.done, []⟩ else ⟨scan.done, c :: scan.current⟩

/-- All lines; the last one counts only if it has a character. -/
def lines (scan : LineScan) : List (List Char) :=
  match scan.current with
  | [] => scan.done.reverse
  | current => (current.reverse :: scan.done).reverse

end LineScan

/-- The lines of a text, each without its line feed and a carriage return before that. -/
def lines (text : List Char) : List (List Char) := (text.foldl LineScan.step {}).lines

/-- The lines of a text, numbered from one. -/
def numberedLines (text : String) : List (List Char × Nat) := (lines text.toList).zipIdx 1

/-- The words of a line that continues a word whose characters are `current`, last one first. -/
def wordsFrom (current : List Char) : List Char → List (List Char)
  | [] => if current.isEmpty then [] else [current.reverse]
  | c :: rest =>
    if isBlank c then
      if current.isEmpty then wordsFrom [] rest else current.reverse :: wordsFrom [] rest
    else wordsFrom (c :: current) rest

/-- The longest runs of characters that are not blank. -/
def words (line : List Char) : List (List Char) := wordsFrom [] line

/-- The pieces of a word between the separators. -/
def fields (separator : Char) : List Char → List (List Char)
  | [] => [[]]
  | c :: rest =>
    if c = separator then [] :: fields separator rest
    else
      match fields separator rest with
      | [] => [[c]]
      | field :: more => (c :: field) :: more

end GateNet.Text
