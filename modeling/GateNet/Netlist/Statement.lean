import GateNet.Netlist.Token
import GateNet.Text.Split
import GateNet.Wire.Literal

/-!
The statements of a netlist, one to a line. A statement declares an input, an output or a gate, and
every statement has one plain spelling; lines of other shapes, and lines with a comment sign, say
nothing and are passed over.
-/

namespace GateNet

/-- One statement of a netlist. -/
inductive Statement where
  | input (literal : Literal)
  | output (literal : Literal) (seed : Option Bool)
  | gate (function : GateFunction) (out : Nat) (a b : Literal)
deriving DecidableEq

namespace Statement

/-- A bit as it is written. -/
def bitDigit (bit : Bool) : String := if bit then "1" else "0"

/-- The plain spelling of a statement. -/
def text : Statement → String
  | .input l => s!"I:{l.index}"
  | .output l none => s!"O:{l.index}"
  | .output l (some seed) => s!"O:{l.index}:{bitDigit seed}"
  | .gate f out a b => s!"{2 * out} {f.code.val} {a.index} {b.index}"

/-- The literal that a token stands for. -/
def literal (token : List Char) : Except Cause Literal := do
  return Literal.ofIndex (← Token.number token)

/-- A line of one word, by the fields of the word: an input or an output. -/
def ofDeclaration (word : List Char) : Except Cause (Option Statement) :=
  match Text.fields ':' word with
  | [['I'], index] => do
    return some (.input (← literal index))
  | [['O'], index] => do
    return some (.output (← literal index) none)
  | [['O'], index, seed] => do
    let l ← literal index
    return some (.output l (some (← Token.bit seed)))
  | ['I'] :: _ => .error (.invalidToken (String.ofList word))
  | ['O'] :: _ => .error (.invalidToken (String.ofList word))
  | _ => .ok none

/-- The wire that a gate drives, which is named by its plain index. -/
def drivenWire (index : Nat) : Except Cause Nat :=
  if index % 2 = 1 then .error (.invertedGateOutput index) else .ok (index / 2)

/-- A line of four words: a gate, whose function is read first. -/
def ofGate (out function a b : List Char) : Except Cause (Option Statement) := do
  let f ← Token.function function
  let w ← drivenWire (← Token.number out)
  let a ← literal a
  let b ← literal b
  return some (.gate f w a b)

/-- The statement on a line, if there is one. -/
def ofLine (line : List Char) : Except Cause (Option Statement) :=
  if line.contains '#' then .ok none
  else
    match Text.words line with
    | [word] => ofDeclaration word
    | [out, function, a, b] => ofGate out function a b
    | _ => .ok none

end Statement

end GateNet
