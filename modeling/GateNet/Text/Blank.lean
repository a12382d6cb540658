/-!
Blank characters: those with the Unicode property White_Space. They separate the words of a line and
have no other meaning there.
-/

namespace GateNet.Text

/-- The ranges of blank characters, as pairs of first and last code point. -/
def blankRanges : List (Nat × Nat) :=
  [(0x09, 0x0D), (0x20, 0x20), (0x85, 0x85), (0xA0, 0xA0), (0x1680, 0x1680), (0x2000, 0x200A),
   (0x2028, 0x2029), (0x202F, 0x202F), (0x205F, 0x205F), (0x3000, 0x3000)]

/-- The character separates words. -/
def isBlank (c : Char) : Bool := blankRanges.any fun (first, last) => first ≤ c.toNat && c.toNat ≤ last

end GateNet.Text
