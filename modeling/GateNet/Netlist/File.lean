import GateNet.File.Host
import GateNet.Netlist.Reader
import GateNet.Netlist.Writer
import GateNet.Values

/-!
Circuits and files. A netlist file and a value file hold a circuit between them: written out and read
back they give a circuit that evaluates as the first one did.
-/

namespace GateNet

variable {m : Type → Type} [Monad m]

namespace Netlist

/-- The circuit in a netlist file. -/
def readFrom (host : Host m) (path : String) : m (Except CircuitError Circuit) := do
  return (← host.readText path).bind parse

/-- Write a circuit to a netlist file. -/
def writeTo (host : Host m) (path : String) (c : Circuit) : m (Except CircuitError Unit) :=
  host.writeText path (render c)

end Netlist

namespace Values

/-- Set the values that a file gives. -/
def loadFrom (host : Host m) (path : String) (c : Circuit) : m (Attempt Circuit CircuitError) := do
  match ← host.readText path with
  | .ok text => return load c text
  | .error e => return ⟨c, some e⟩

/-- Write the values of a circuit's netlist inputs to a file. -/
def writeTo (host : Host m) (path : String) (c : Circuit) : m (Except CircuitError Unit) :=
  host.writeText path (render c)

end Values

/-- The circuit read back from its own netlist, with its own values loaded; a circuit whose netlist does
not parse stays as it is. -/
def Circuit.reload (c : Circuit) : Attempt Circuit CircuitError :=
  match Netlist.parse (Netlist.render c) with
  | .ok reread => Values.load reread (Values.render c)
  | .error e => ⟨c, some e⟩

end GateNet
