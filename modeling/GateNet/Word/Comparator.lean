import GateNet.Word.Basic
import GateNet.Word.Adder
import GateNet.Gadget.Bits

/-!
Comparisons of words. The sign bits make the first decision, in one sense for signed and in the other
for unsigned numbers; each lower bit then decides if all bits above it are equal, from the highest down.
-/

namespace GateNet.Word

/-- The pairs of bits of two words of one width, highest pair first. -/
def pairsFromTop (a b : Word) : List (Nat × Nat) := (a.bits.zip b.bits).reverse

/-- The decision after the pairs given, highest first: `result` is the decision so far, and `equal` tells
whether all pairs before were equal. -/
def lessBelow (result equal : Nat) : List (Nat × Nat) → Build Nat
  | [] => return result
  | (a, b) :: rest => do
    let notA ← Build.invert a
    let below ← Build.and notA b
    let decided ← Build.and below equal
    let result ← Build.or result decided
    match rest with
    | [] => return result
    | _ :: _ => do
      let same ← Build.bitEqual a b
      let equal ← Build.and equal same
      lessBelow result equal rest

/-- The decision on all pairs of bits, given that of the sign bits. -/
def lessFromTop (a b : Word) (signs : Nat) : Build Nat := do
  requireSameWidth a b
  match pairsFromTop a b with
  | [] => throw .emptyWord
  | (topA, topB) :: rest => do
    let start ← Build.constant true
    let same ← Build.bitEqual topA topB
    let equal ← Build.and start same
    lessBelow signs equal rest

/-- Signed `a < b`: of different signs, the negative one is less. -/
def less (a b : Word) : Build Nat := do
  requireSameWidth a b
  let notB ← Build.invert (← b.msb)
  let signs ← Build.and (← a.msb) notB
  lessFromTop a b signs

/-- Unsigned `a < b`: of different leading bits, the clear one is less. -/
def lessUnsigned (a b : Word) : Build Nat := do
  requireSameWidth a b
  let notA ← Build.invert (← a.msb)
  let signs ← Build.and notA (← b.msb)
  lessFromTop a b signs

/-- All pairs are equal, and `result` besides. -/
def equalFrom (result : Nat) : List (Nat × Nat) → Build Nat
  | [] => return result
  | (a, b) :: rest => do
    let same ← Build.bitEqual a b
    let result ← Build.and result same
    equalFrom result rest

/-- `a = b`. -/
def equal (a b : Word) : Build Nat := do
  requireSameWidth a b
  let start ← Build.constant true
  equalFrom start (a.bits.zip b.bits)

/-- Signed `a ≤ b`. -/
def lessOrEqual (a b : Word) : Build Nat := do
  let lt ← less a b
  let eq ← equal a b
  Build.or lt eq

/-- Unsigned `a ≤ b`. -/
def lessOrEqualUnsigned (a b : Word) : Build Nat := do
  let lt ← lessUnsigned a b
  let eq ← equal a b
  Build.or lt eq

end GateNet.Word
