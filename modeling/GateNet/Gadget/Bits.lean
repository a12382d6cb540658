import GateNet.Circuit.Synthesis

/-!
Gadgets on single bits: the named gates, one stage of a ripple adder, and the choice between two wires.
A gadget never looks at values, so the wires it issues depend on its operands alone.
-/

namespace GateNet.Build

def xor (a b : Nat) : Build Nat := addGate .xor a b

def and (a b : Nat) : Build Nat := addGate .and a b

def or (a b : Nat) : Build Nat := addGate .or a b

/-- `a` and not `b`. -/
def andNot (a b : Nat) : Build Nat := addGate .nimp a b

/-- The sum and the carry of three bits. -/
def fullAdder (a b carry : Nat) : Build (Nat × Nat) := do
  let half ← xor a b
  let sum ← xor half carry
  let both ← and a b
  let passed ← and half carry
  let carryOut ← or both passed
  return (sum, carryOut)

/-- `whenTrue` if `sel` is set, otherwise `whenFalse`. -/
def select (sel whenTrue whenFalse : Nat) : Build Nat := do
  let notSel ← invert sel
  let t ← and whenTrue sel
  let f ← and whenFalse notSel
  or t f

/-- The two bits are equal. -/
def bitEqual (a b : Nat) : Build Nat := do
  let differ ← xor a b
  invert differ

end GateNet.Build
