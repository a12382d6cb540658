import GateNet.Number.Rounding

/-!
Counts in compact form, for messages about progress. No circuit prints any: that is left to a caller,
who knows how long its run takes. Counts from a thousand up are written in thousands, millions or
billions with a fixed number of decimals; the quotient is a binary64 number and its decimals are exact,
so which way a count rounds is decided twice, and both times a half goes to the even neighbour.
-/

namespace GateNet

/-- A unit of compact counts: its size, the places after the point, and its letter. -/
structure CountUnit where
  size : Nat
  places : Nat
  letter : String

/-- The units, largest first. -/
def countUnits : List CountUnit :=
  [⟨1000000000, 2, "b"⟩, ⟨1000000, 1, "m"⟩, ⟨1000, 1, "k"⟩]

/-- The number of units in `n`: both `n` and the quotient are taken in binary64. -/
def CountUnit.quotient (u : CountUnit) (n : Nat) : Fraction :=
  ((Fraction.mk n 1).toBinary64.divide u.size).toBinary64

/-- A count in the largest unit that it reaches, and in full below the least of them. -/
def compactCount (n : Nat) : String :=
  match countUnits.find? (fun u => u.size ≤ n) with
  | some u => (u.quotient n).toFixed u.places ++ u.letter
  | none => toString n

end GateNet
