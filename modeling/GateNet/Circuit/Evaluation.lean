import GateNet.Sequence
import GateNet.Circuit.Basic

/-!
Evaluating a circuit. The complements of inputs are brought up to date first, then every gate is
evaluated once, in the order of the wires that they drive. Since no gate reads a wire that is driven
after it, one pass settles every gate; a pass that meets a wire without a value stops there.
-/

namespace GateNet.Circuit

/-- Let the complement of an input follow the input's value. -/
def refreshComplement (s : WireStore) (pair : Nat × Nat) : Except Cause WireStore := do
  match ← (s.effective pair.1).mapError Cause.wire with
  | some value => (s.setValue pair.2 !value).mapError Cause.wire
  | none => return s

/-- The value of a wire that a gate reads. -/
def readOperand (s : WireStore) (g : Gate) (w : Nat) : Except Cause Bool := do
  match ← (s.effective w).mapError Cause.wire with
  | some value => return value
  | none => throw (.unassignedInput g.out w)

/-- Write the raw output of a gate. -/
def evaluateGate (s : WireStore) (g : Gate) : Except Cause WireStore := do
  let a ← readOperand s g g.a
  let b ← readOperand s g g.b
  (s.setValue g.out (g.eval a b)).mapError Cause.wire

/-- One pass over the complements and the gates. -/
def settle (c : Circuit) : Attempt WireStore Cause :=
  match runSteps refreshComplement c.wires c.inputComplements with
  | ⟨wires, none⟩ => runSteps evaluateGate wires c.gateList
  | stopped => stopped

/-- Evaluate the circuit; if a gate cannot be evaluated, the gates before it have been. -/
def execute (c : Circuit) : Attempt Circuit Cause :=
  let pass := c.settle
  ⟨{ c with wires := pass.state }, pass.failure⟩

/-! ### Reading the outputs -/

/-- The value that an output delivers. -/
def outputValue (c : Circuit) (l : Literal) : Except Cause Bool := do
  match (← c.cell l.wire).value with
  | some raw => return raw ^^ l.inverted
  | none => throw (.unassignedOutput l.wire)

/-- The values of the outputs in the order of their declaration. -/
def outputValues (c : Circuit) : Except Cause (List Bool) := c.outputs.mapM c.outputValue

/-- Bits as text, the first one last. -/
def bitText (bits : List Bool) : String :=
  String.ofList (bits.reverse.map fun bit => if bit then '1' else '0')

/-- The values of the outputs as text; the output declared first is the last character. -/
def outputBits (c : Circuit) : Except Cause String := c.outputValues.map bitText

end GateNet.Circuit
