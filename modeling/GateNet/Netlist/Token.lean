import GateNet.Text.Decimal
import GateNet.Circuit.Error
import GateNet.Gate.Function

/-!
The tokens of netlists and value files: indices, bits and gate functions. A token that is none of what
its place asks for is reported as it stands.
-/

namespace GateNet.Token

/-- A number of 64 bits. -/
def number (token : List Char) : Except Cause Nat :=
  match Text.number? token with
  | some n => .ok n
  | none => .error (.invalidToken (String.ofList token))

/-- A bit. -/
def bit (token : List Char) : Except Cause Bool :=
  match token with
  | ['0'] => .ok false
  | ['1'] => .ok true
  | _ => .error (.nonBinaryValue (String.ofList token))

/-- The function with a code from 1 to 15. -/
def functionOfCode (code : Nat) : Except Cause GateFunction :=
  match GateFunction.ofCode? code with
  | some f => if f.code.val = 0 then .error (.functionOutOfRange code) else .ok f
  | none => .error (.functionOutOfRange code)

/-- A gate function by its code. -/
def function (token : List Char) : Except Cause GateFunction := do
  functionOfCode (← number token)

end GateNet.Token
