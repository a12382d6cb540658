import GateNet.Sequence
import GateNet.Text.Split
import GateNet.Netlist.Token
import GateNet.Netlist.Writer
import GateNet.Wire.Literal

/-!
Value files. A line gives an index and a bit, and sets the raw value of the index's wire whatever the
polarity of the index; a heading, comments and lines of other shapes are passed over. A bad line stops
the reading, and the lines before it stay in effect.
-/

namespace GateNet.Values

/-- The wire and the raw value that a line sets, if it sets one. -/
def ofLine (line : List Char) : Except Cause (Option (Nat × Bool)) :=
  if line.contains '#' then .ok none
  else
    match Text.words line with
    | [index, value] =>
      if index = "input".toList then .ok none
      else do
        let n ← Token.number index
        return some ((Literal.ofIndex n).wire, ← Token.bit value)
    | _ => .ok none

/-- Set what a line sets. -/
def assignLine (c : Circuit) (line : List Char) : Except Cause Circuit := do
  match ← ofLine line with
  | some (w, value) => c.assign w value
  | none => return c

/-- The same for a numbered line, which is at fault for any error. -/
def loadLine (c : Circuit) (line : List Char × Nat) : Except CircuitError Circuit :=
  (assignLine c line.1).mapError (.atLine line.2)

/-- Set the values that a text gives, line by line. -/
def load (c : Circuit) (text : String) : Attempt Circuit CircuitError :=
  runSteps loadLine c (Text.numberedLines text)

/-- The line that gives a wire its value. -/
def lineText (w : Nat) (value : Bool) : String :=
  s!"{(Literal.mk w false).index} {Statement.bitDigit value}"

/-- The values of the wires that a netlist declares as inputs. -/
def render (c : Circuit) : String :=
  String.join ((Netlist.sources c).filterMap fun (w, cell) =>
    cell.value.map fun value => lineText w value ++ "\n")

end GateNet.Values
