import GateNet.Circuit.Error

/-!
Faults. A fault is a breach of what an operation asks of its caller, so unlike an error it leaves no
circuit to go on with.
-/

namespace GateNet

/-- What a caller did wrong. -/
inductive Fault where
  /-- Building on a circuit that was loaded from a netlist. -/
  | netlistCircuit
  /-- A gate over two wires of which one does not exist. -/
  | missingOperand (a b : Nat)
  /-- The complement of a wire that does not exist. -/
  | unknownWire (error : WireError)
  /-- The complement of a wire that nothing drives. -/
  | noComplement (wire : Nat)
  /-- The counter issued a wire that is in use. -/
  | unusableWire (error : WireError)
  /-- The wire issued for a gate has a driver. -/
  | driverClash (cause : Cause)
  /-- The sign bit of a word without bits. -/
  | emptyWord
  /-- Words of different widths where one width is asked for. -/
  | widthMismatch
deriving DecidableEq

/-- The text of a fault; a difference of widths has none. -/
def Fault.message? : Fault → Option String
  | .netlistCircuit => some "synthesis is not available on a circuit loaded from a netlist"
  | .missingOperand a b => some s!"gate inputs {a} and {b} must exist before the gate"
  | .unknownWire error => some s!"cannot invert: {error.message}"
  | .noComplement w => some s!"wire {w} is neither an input, a gate output nor a constant"
  | .unusableWire error => some s!"wire counter handed out an unusable id: {error.message}"
  | .driverClash cause => some s!"fresh gate output collides: {cause.message}"
  | .emptyWord => some "integer of width zero"
  | .widthMismatch => none

end GateNet
