import GateNet.Netlist.Statement
import GateNet.Circuit.Declaration

/-!
Reading a netlist. The statements are declared one after the other; the first line that is no statement
or cannot be declared is at fault for the whole text. What concerns the circuit as a whole is checked
at the end and has no line.
-/

namespace GateNet

/-- Declare what a statement says. -/
def Circuit.declare (c : Circuit) : Statement → Except Cause Circuit
  | .input l => c.declareInput l
  | .output l seed => c.declareOutput l seed
  | .gate function out a b => c.declareGate function out a b

namespace Netlist

/-- Declare what a line says, if it says anything. -/
def declareLine (c : Circuit) (line : List Char) : Except Cause Circuit := do
  match ← Statement.ofLine line with
  | some statement => c.declare statement
  | none => return c

/-- The same for a numbered line, which is at fault for any error. -/
def readLine (c : Circuit) (line : List Char × Nat) : Except CircuitError Circuit :=
  (declareLine c line.1).mapError (.atLine line.2)

/-- The circuit that a netlist describes. -/
def parse (text : String) : Except CircuitError Circuit := do
  let c ← (Text.numberedLines text).foldlM readLine { origin := .netlist }
  c.checkComplete.mapError .general
  return c

end Netlist

end GateNet
