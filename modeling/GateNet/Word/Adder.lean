import GateNet.Word.Basic
import GateNet.Gadget.Bits

/-!
Sums, negations and differences of words, modulo two to the width. Bits are added from the lowest up,
each stage handing its carry to the next; to negate is to invert every bit and add one, and to subtract
is to add the negation.
-/

namespace GateNet.Word

/-- The two words must be of one width. -/
def requireSameWidth (a b : Word) : Build Unit := fun c =>
  if a.width = b.width then .ok ((), c) else .error .widthMismatch

/-- The sums of pairs of bits, lowest pair first, with the carry that comes into the first. -/
def ripple (carry : Nat) : List (Nat × Nat) → Build (List Nat)
  | [] => return []
  | (a, b) :: rest => do
    let (sum, carryOut) ← Build.fullAdder a b carry
    let sums ← ripple carryOut rest
    return sum :: sums

/-- The sum. -/
def add (a b : Word) : Build Word := do
  requireSameWidth a b
  let carry ← Build.constant false
  return ⟨← ripple carry (a.bits.zip b.bits)⟩

/-- The word of the number one, and zero if it has no bits. -/
def one (width : Nat) : Build Word := ofConstants (TwosComplement.bitsOf width 1)

/-- The negation. -/
def negate (a : Word) : Build Word := do
  let inverted ← a.bits.mapM Build.invert
  let one ← one a.width
  add ⟨inverted⟩ one

/-- The difference. -/
def sub (a b : Word) : Build Word := do
  requireSameWidth a b
  let negB ← negate b
  add a negB

end GateNet.Word
