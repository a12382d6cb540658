import GateNet.Wire.Polarity
import GateNet.File.Error

/-!
What can go wrong with a circuit. An error is one cause, and the line of the text that brought it up
if there is one; the cause alone decides the kind of the error, and the line only heads its text.
-/

namespace GateNet

/-- What a circuit error says went wrong. -/
inductive Cause where
  | invalidToken (token : String)
  | functionOutOfRange (code : Nat)
  | invertedGateOutput (index : Nat)
  | nonBinaryValue (token : String)
  | duplicateGate (wire : Nat)
  | gateDrivesInput (wire : Nat)
  | duplicateOutput (wire : Nat)
  | missingInput (gate wire : Nat)
  | outOfOrder (gate wire : Nat)
  | undrivenOutput (wire : Nat)
  | unassignedInput (gate wire : Nat)
  | unassignedOutput (wire : Nat)
  | wire (error : WireError)
  | inaccessible (path : String) (reason : FileError)
deriving DecidableEq

/-- The classes into which causes fall. -/
inductive ErrorKind where
  /-- Text that is no statement: bad tokens, codes out of range, values that are not binary. -/
  | malformed
  /-- Statements that do not fit together. -/
  | structural
  /-- A file that cannot be read or written. -/
  | resource
deriving DecidableEq

namespace Cause

/-- The text of a cause. -/
def message : Cause → String
  | .invalidToken token => s!"invalid token `{token}`"
  | .functionOutOfRange code => s!"gate function code {code} is outside 1..=15"
  | .invertedGateOutput index =>
    s!"gate output index {index} is odd; gate outputs are declared non-inverted"
  | .nonBinaryValue token => s!"value `{token}` is not binary"
  | .duplicateGate w => s!"gate driving wire {w} is defined twice"
  | .gateDrivesInput w => s!"gate drives wire {w}, which is declared as an input"
  | .duplicateOutput w => s!"wire {w} is declared as output twice"
  | .missingInput g w => s!"gate {g} references undeclared wire {w}"
  | .outOfOrder g w => s!"gate {g} reads gate output {w}, which is evaluated later"
  | .undrivenOutput w => s!"output wire {w} is neither an input, a gate output nor pre-seeded"
  | .unassignedInput g w => s!"gate {g} reads wire {w} before it was assigned"
  | .unassignedOutput w => s!"output wire {w} has no value"
  | .wire error => error.message
  | .inaccessible path reason => s!"failed to access {path}: {reason.message}"

/-- The class of a cause. -/
def kind : Cause → ErrorKind
  | .invalidToken _ | .functionOutOfRange _ | .invertedGateOutput _ | .nonBinaryValue _ => .malformed
  | .inaccessible _ _ => .resource
  | _ => .structural

end Cause

/-- A cause, with the number of the line at fault if it came up while reading text. -/
structure CircuitError where
  line : Option Nat
  cause : Cause
deriving DecidableEq

namespace CircuitError

/-- An error that no line is at fault for. -/
def general (cause : Cause) : CircuitError := ⟨none, cause⟩

/-- An error in the line with this number. -/
def atLine (line : Nat) (cause : Cause) : CircuitError := ⟨some line, cause⟩

/-- The text of an error: its cause, after the line if there is one. -/
def message (e : CircuitError) : String :=
  match e.line with
  | some line => s!"line {line}: {e.cause.message}"
  | none => e.cause.message

end CircuitError

end GateNet
