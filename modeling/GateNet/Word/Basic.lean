import GateNet.Sequence
import GateNet.Circuit.Synthesis
import GateNet.Integer.TwosComplement

/-!
Words: integers of a fixed width in a circuit, one wire to a bit, least significant first. A word is
written and read bit by bit in that order, so an error is that of the lowest bit that has one.
-/

namespace GateNet

/-- The wires of an integer, least significant first. -/
structure Word where
  bits : List Nat
deriving DecidableEq

namespace Word

/-- The number of bits. -/
def width (x : Word) : Nat := x.bits.length

/-- The wire of a bit. -/
def get? (x : Word) (i : Nat) : Option Nat := x.bits[i]?

/-- The wire of the sign bit. -/
def msb (x : Word) : Except Fault Nat :=
  match x.bits.getLast? with
  | some w => .ok w
  | none => .error .emptyWord

/-! ### Issuing words -/

/-- A word of inputs. -/
def issueInputs (width : Nat) : Build Word := do
  return ⟨← (List.replicate width ()).mapM fun _ => Build.issueInput⟩

/-- A word of constants that hold the bits given. -/
def ofConstants (bits : List Bool) : Build Word := do
  return ⟨← bits.mapM Build.constant⟩

/-- A constant word; whether its value fits is known before a wire is issued. -/
def constant (width : Nat) (v : Int) : Except IntegerError (Build Word) :=
  (TwosComplement.encode v width).map ofConstants

/-! ### Writing and reading words -/

/-- Write the raw value of one bit. -/
def assignBit (c : Circuit) (bit : Nat × Bool) : Except IntegerError Circuit :=
  (c.assign bit.1 bit.2).mapError .ofCause

/-- Write a value into the wires of a word. -/
def assign (x : Word) (c : Circuit) (v : Int) : Attempt Circuit IntegerError :=
  match TwosComplement.encode v x.width with
  | .ok bits => runSteps assignBit c (x.bits.zip bits)
  | .error e => ⟨c, some e⟩

/-- Declare every bit to be an output. -/
def markOutput (x : Word) (c : Circuit) : Attempt Circuit Cause :=
  runAttempts Circuit.makeOutput c x.bits

/-- The value of one bit. -/
def readBit (c : Circuit) (w : Nat) : Except Cause Bool := do
  match ← c.value w with
  | some bit => return bit
  | none => throw (.unassignedOutput w)

/-- The unsigned value of a word. -/
def decodeUnsigned (x : Word) (c : Circuit) : Except Cause Nat := do
  return TwosComplement.value (← x.bits.mapM (readBit c))

/-- The signed value of a word. -/
def decodeSigned (x : Word) (c : Circuit) : Except Cause Int := do
  return TwosComplement.signed (← x.decodeUnsigned c) x.width

end Word

end GateNet
