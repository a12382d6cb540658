import GateNet.Circuit.Error

/-!
What can go wrong with integers: a value that its width cannot hold, text that is no bit string, or the
circuit that the integer lives in.
-/

namespace GateNet

/-- An error of integer input or output. -/
inductive IntegerError where
  | tooWide (value : Int) (width : Nat)
  | invalidBitString (text : String)
  | circuit (error : CircuitError)
deriving DecidableEq

/-- The text of an integer error. -/
def IntegerError.message : IntegerError → String
  | .tooWide value width => s!"value {value} does not fit into {width} bits"
  | .invalidBitString text => s!"`{text}` is not a bit string"
  | .circuit error => error.message

/-- An error of the circuit that no line is at fault for. -/
def IntegerError.ofCause (cause : Cause) : IntegerError := .circuit (.general cause)

end GateNet
