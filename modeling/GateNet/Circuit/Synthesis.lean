import GateNet.Sequence
import GateNet.Circuit.Basic
import GateNet.Circuit.Fault

/-!
Building a circuit up. Wires are issued in ascending order and a gate drives a wire issued after those
it reads, so evaluating by ascending wire is right for whatever is built. A complement is built once:
that of an input is a wire that follows the input, and that of a gate output is a second driver of the
same function whose wire is registered in the opposite polarity, so no inverter is spent.
-/

namespace GateNet

/-- A step of building: it extends a circuit and returns a result, or is at fault. -/
abbrev Build := StateT Circuit (Except Fault)

namespace Build

/-- Issue the next wire with the polarity and value given. -/
def freshWire (inverted : Bool) (value : Option Bool) : Build Nat := fun c =>
  if c.origin = .netlist then .error .netlistCircuit
  else
    match c.wires.insert c.nextWire ⟨value, ⟨inverted, false⟩⟩ with
    | .ok wires =>
      .ok (c.nextWire, { c with origin := .synthesis, wires, nextWire := c.nextWire + 1 })
    | .error e => .error (.unusableWire e)

/-- Issue a wire that nothing drives yet. -/
def issueWire : Build Nat := freshWire false none

/-- Issue a wire that holds a bit. -/
def constant (bit : Bool) : Build Nat := freshWire false (some bit)

/-- Issue an input. -/
def issueInput : Build Nat := do
  let w ← issueWire
  modify fun c => { c with inputs := c.inputs.insert w }
  return w

/-- Both wires have to exist. -/
def requireOperands (a b : Nat) : Build Unit := fun c =>
  if c.wires.contains a && c.wires.contains b then .ok ((), c) else .error (.missingOperand a b)

/-- Register the driver of a wire that was just issued. -/
def drive (g : Gate) : Build Unit := fun c =>
  match c.addDriver g with
  | .ok c => .ok ((), c)
  | .error e => .error (.driverClash e)

/-- Issue a wire driven by a gate over two wires that exist. -/
def addGate (function : GateFunction) (a b : Nat) : Build Nat := do
  requireOperands a b
  let out ← issueWire
  drive ⟨function, a, b, out⟩
  return out

/-! ### Complements -/

/-- Two wires are each other's complement from now on. -/
def rememberComplement (w v : Nat) : Build Unit :=
  modify fun c => { c with complements := (c.complements.insert w v).insert v w }

/-- The complement of an input: a wire that is kept opposite to it. -/
def complementInput (w : Nat) (value : Option Bool) : Build Nat := do
  let v ← freshWire false (value.map (!·))
  rememberComplement w v
  modify fun c => { c with inputComplements := c.inputComplements ++ [(w, v)] }
  return v

/-- The complement of a gate output: the same gate once more, read in the opposite polarity. -/
def complementGate (w : Nat) (g : Gate) (cell : Cell) : Build Nat := do
  let v ← freshWire (!cell.polarity.inverted) cell.value
  drive (g.withOutput v)
  rememberComplement w v
  return v

/-- The complement of a wire, built unless it is known. That of a constant is a new constant. -/
def invert (w : Nat) : Build Nat := do
  let c ← get
  match c.complement? w with
  | some v => return v
  | none =>
    match c.wires.cell w with
    | .error e => throw (.unknownWire e)
    | .ok cell =>
      if c.isInput w then complementInput w cell.effective
      else
        match c.gate? w with
        | some g => complementGate w g cell
        | none =>
          match cell.effective with
          | some bit => constant !bit
          | none => throw (.noComplement w)

end Build

namespace Circuit

/-- Declare a wire to be the next output; it is read as gates read it. The wire is noted as one before it
shows whether it was an output already. -/
def makeOutput (c : Circuit) (w : Nat) : Attempt Circuit Cause :=
  match c.cell w with
  | .error e => ⟨c, some e⟩
  | .ok cell =>
    let noted := { c with outputWires := c.outputWires.insert w }
    if c.isOutput w then ⟨noted, some (.duplicateOutput w)⟩
    else ⟨{ noted with outputs := noted.outputs ++ [⟨w, cell.polarity.inverted⟩] }, none⟩

/-- The same as a step that is taken or not. -/
def addOutput (c : Circuit) (w : Nat) : Except Cause Circuit := (c.makeOutput w).result

end Circuit

end GateNet
