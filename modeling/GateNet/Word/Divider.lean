import GateNet.Word.Adder
import GateNet.Word.Comparator

/-!
Division of words by restoring steps. The magnitudes are divided bit by bit from the top: a step brings
down one bit of the dividend and subtracts the divisor if it goes in, which is the quotient's bit. The
quotient is negated if the signs differ, so division truncates toward zero.
-/

namespace GateNet.Word

/-- `whenTrue` if `sel` is set, otherwise `whenFalse`, bit by bit. -/
def select (sel : Nat) (whenTrue whenFalse : Word) : Build Word := do
  requireSameWidth whenTrue whenFalse
  return ⟨← (whenTrue.bits.zip whenFalse.bits).mapM fun (t, f) => Build.select sel t f⟩

/-- The magnitude of a signed word; that of the least value is its unsigned reading. -/
def abs (a : Word) : Build Word := do
  let negated ← negate a
  select (← a.msb) negated a

/-- One step of unsigned division: the next remainder, and whether the divisor went in. -/
def divisionStep (remainder divisor : Word) : Build (Word × Nat) := do
  let take ← lessOrEqualUnsigned divisor remainder
  let reduced ← sub remainder divisor
  let next ← select take reduced remainder
  return (next, take)

/-- The quotient bits that come of bringing down the bits given, highest first; `quotient` holds the
bits above them. -/
def divideFrom (divisor : Word) (remainder : Word) (quotient : List Nat) : List Nat → Build Word
  | [] => return ⟨quotient⟩
  | bit :: rest => do
    let (next, take) ← divisionStep ⟨bit :: remainder.bits.dropLast⟩ divisor
    divideFrom divisor next (take :: quotient) rest

/-- The signed quotient; that by zero is no particular word. -/
def div (a b : Word) : Build Word := do
  requireSameWidth a b
  let dividend ← abs a
  let divisor ← abs b
  let remainder ← ofConstants (List.replicate a.width false)
  let quotient ← divideFrom divisor remainder [] dividend.bits.reverse
  let negated ← negate quotient
  let signsDiffer ← Build.xor (← a.msb) (← b.msb)
  select signsDiffer negated quotient

end GateNet.Word
