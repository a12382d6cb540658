import Std.Data.ExtTreeSet
import GateNet.Gate.Basic
import GateNet.Gate.Tally
import GateNet.Wire.Literal
import GateNet.Wire.Store
import GateNet.Circuit.Error

/-!
Combinational circuits. A circuit registers wires and the gates between them; a gate is filed under the
wire it drives, and gates are evaluated in the order of those wires. The wires that a circuit takes its
values from, the literals it delivers and the complements built so far are kept beside them.
-/

namespace GateNet

/-- How a circuit was filled: not yet, from a netlist, or by building it up. The last two exclude each
other. -/
inductive Origin where
  | empty
  | netlist
  | synthesis
deriving DecidableEq

/-- A circuit. -/
@[ext] structure Circuit where
  origin : Origin := .empty
  wires : WireStore := {}
  /-- The gates by the wire they drive. -/
  gates : Std.ExtTreeMap Nat Gate := ∅
  inputs : Std.ExtTreeSet Nat := ∅
  /-- The outputs in the order of their declaration; each applies its polarity to the raw value. -/
  outputs : List Literal := []
  /-- The wires of the outputs, among which a wire is looked for before it becomes one. -/
  outputWires : Std.ExtTreeSet Nat := ∅
  /-- The known complements, each in both directions. -/
  complements : Std.ExtTreeMap Nat Nat := ∅
  /-- The inputs that have a complement, each with it, in the order in which they were built. -/
  inputComplements : List (Nat × Nat) := []
  /-- The next wire to be issued. -/
  nextWire : Nat := 0
  tally : GateTally := {}

namespace Circuit

def isInput (c : Circuit) (w : Nat) : Bool := c.inputs.contains w

def isGateOutput (c : Circuit) (w : Nat) : Bool := c.gates.contains w

def isOutput (c : Circuit) (w : Nat) : Bool := c.outputWires.contains w

/-- The number of registered wires. -/
def numWires (c : Circuit) : Nat := c.wires.size

/-- The number of registered gates. -/
def numGates (c : Circuit) : Nat := c.gates.size

/-- The gate that drives a wire. -/
def gate? (c : Circuit) (w : Nat) : Option Gate := c.gates[w]?

/-- The gates in the order of evaluation. -/
def gateList (c : Circuit) : List Gate := c.gates.values

/-- The complement of a wire, if one has been built. -/
def complement? (c : Circuit) (w : Nat) : Option Nat := c.complements[w]?

/-- The raw value and the polarity of a wire. -/
def cell (c : Circuit) (w : Nat) : Except Cause Cell := (c.wires.cell w).mapError .wire

/-- The value of a wire as its readers see it. -/
def value (c : Circuit) (w : Nat) : Except Cause (Option Bool) := (c.wires.effective w).mapError .wire

/-- Write the raw value of a wire. -/
def assign (c : Circuit) (w : Nat) (value : Bool) : Except Cause Circuit := do
  let wires ← (c.wires.setValue w value).mapError Cause.wire
  return { c with wires }

/-- Note an output in both places. -/
def appendOutput (c : Circuit) (l : Literal) : Circuit :=
  { c with outputs := c.outputs ++ [l], outputWires := c.outputWires.insert l.wire }

/-- Register a gate for a wire that has no driver yet. -/
def addDriver (c : Circuit) (g : Gate) : Except Cause Circuit :=
  if c.isGateOutput g.out then .error (.duplicateGate g.out)
  else .ok { c with gates := c.gates.insert g.out g, tally := c.tally.add g.function }

theorem isOutput_appendOutput {c : Circuit} {l : Literal} {w : Nat} :
    (c.appendOutput l).isOutput w = true ↔ c.isOutput w = true ∨ w = l.wire := by
  simp only [isOutput, appendOutput, Std.ExtTreeSet.contains_insert, Bool.or_eq_true, beq_iff_eq,
    Nat.compare_eq_eq]
  exact ⟨fun h => h.symm.imp_right Eq.symm, fun h => h.symm.imp_left Eq.symm⟩

end Circuit

end GateNet
