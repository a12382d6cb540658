import GateNet.Netlist.Statement
import GateNet.Circuit.Basic

/-!
Writing a circuit as a netlist. Every wire that has to be there before the gates are evaluated becomes
an input, also a constant or a complement that no gate drives; its value is not written here but in
the value file. A wire is written in its registered polarity wherever a gate reads it.
-/

namespace GateNet.Netlist

/-- The wire is written as an input: no gate drives it, and it is an input, holds a value or has a
complement. -/
def isSource (c : Circuit) (w : Nat) (cell : Cell) : Bool :=
  !c.isGateOutput w && (c.isInput w || cell.value.isSome || (c.complement? w).isSome)

/-- The wires that are written as inputs, in ascending order. -/
def sources (c : Circuit) : List (Nat × Cell) := c.wires.entries.filter fun (w, cell) => isSource c w cell

/-- The registered polarity of a wire, and plain for an unknown one. -/
def polarity (c : Circuit) (w : Nat) : Bool :=
  match c.wires.cells[w]? with
  | some cell => cell.polarity.inverted
  | none => false

/-- A gate as it is declared. -/
def gateStatement (c : Circuit) (g : Gate) : Statement :=
  .gate g.function g.out ⟨g.a, polarity c g.a⟩ ⟨g.b, polarity c g.b⟩

/-- The statements that declare a circuit. -/
def statements (c : Circuit) : List Statement :=
  (sources c).map (fun (w, cell) => .input ⟨w, cell.polarity.inverted⟩) ++
    c.outputs.map (fun l => .output l none) ++
    c.gateList.map (gateStatement c)

/-- The comment that heads a netlist. -/
def heading (c : Circuit) : String := s!"# {c.numWires} wires, {c.numGates} gates"

/-- The netlist of a circuit: its heading and its statements, a line each. -/
def render (c : Circuit) : String :=
  String.join ((heading c :: (statements c).map Statement.text).map (· ++ "\n"))

end GateNet.Netlist
