import GateNet.Circuit.Basic

/-!
Filling a circuit by declarations. Inputs, outputs and gates may be declared for any wire; a wire comes
into being with the first declaration of an input, output or gate that names it, and gates read wires
that exist. The polarity of a wire is settled by the gates that read it: the first reader that differs
from it flips it, and a second flip is an error.
-/

namespace GateNet.Circuit

/-- Register a wire in the plain polarity unless it is registered already. -/
def ensureWire (c : Circuit) (w : Nat) : Except Cause Circuit :=
  if c.wires.contains w then .ok c
  else do
    let wires ← (c.wires.insert w ⟨none, ⟨false, false⟩⟩).mapError Cause.wire
    return { c with wires }

/-- Declare a wire to be an input of the polarity given. -/
def declareInput (c : Circuit) (l : Literal) : Except Cause Circuit := do
  let wires ← (c.wires.insert l.wire ⟨none, ⟨l.inverted, false⟩⟩).mapError Cause.wire
  return { c with wires, inputs := c.inputs.insert l.wire }

/-- Declare an output. Its polarity is its own and no other reader's; a value seeds its wire. -/
def declareOutput (c : Circuit) (l : Literal) (seed : Option Bool) : Except Cause Circuit :=
  if c.isOutput l.wire then .error (.duplicateOutput l.wire)
  else do
    let c ← c.ensureWire l.wire
    let c ← match seed with
      | some value => c.assign l.wire value
      | none => .ok c
    return c.appendOutput l

/-- Give a wire the polarity under which a gate reads it. -/
def matchPolarity (c : Circuit) (l : Literal) : Except Cause Circuit := do
  let cell ← c.cell l.wire
  if cell.polarity.inverted = l.inverted then
    return c
  else
    let wires ← (c.wires.flip l.wire).mapError Cause.wire
    return { c with wires }

/-- A gate may read a wire that exists and that it does not drive itself. -/
def checkOperand (c : Circuit) (out w : Nat) : Except Cause Unit :=
  if w = out ∨ ¬ c.wires.contains w then .error (.missingInput out w) else .ok ()

/-- Declare a gate. -/
def declareGate (c : Circuit) (function : GateFunction) (out : Nat) (a b : Literal) :
    Except Cause Circuit :=
  if c.isGateOutput out then .error (.duplicateGate out)
  else if c.isInput out then .error (.gateDrivesInput out)
  else do
    c.checkOperand out a.wire
    c.checkOperand out b.wire
    let c ← c.ensureWire out
    let c ← c.matchPolarity a
    let c ← c.matchPolarity b
    c.addDriver ⟨function, a.wire, b.wire, out⟩

/-! ### What has to hold once everything is declared -/

/-- Whether a wire has a driver: it is an input, a gate output, or holds a value. -/
def isDriven (c : Circuit) (w : Nat) : Except Cause Bool :=
  if c.isInput w || c.isGateOutput w then .ok true
  else do
    let cell ← c.cell w
    return cell.value.isSome

/-- The wire of an output has a driver. -/
def checkOutput (c : Circuit) (l : Literal) : Except Cause Unit := do
  if ← c.isDriven l.wire then return () else throw (.undrivenOutput l.wire)

/-- A gate may read a wire unless a later gate drives it. -/
def checkOrder (c : Circuit) (g : Gate) (w : Nat) : Except Cause Unit :=
  if c.isGateOutput w ∧ g.out < w then .error (.outOfOrder g.out w) else .ok ()

/-- Neither wire that the gate reads is driven after it. -/
def checkGate (c : Circuit) (g : Gate) : Except Cause Unit := [g.a, g.b].forM (c.checkOrder g)

/-- Every output is driven, and no gate reads a wire that is driven after it. -/
def checkComplete (c : Circuit) : Except Cause Unit := do
  c.outputs.forM c.checkOutput
  c.gateList.forM c.checkGate

end GateNet.Circuit
