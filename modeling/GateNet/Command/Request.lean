import GateNet.Command.Option
import GateNet.Text.Decimal
import GateNet.Text.Integer

/-!
What a command line asks for. The first argument names a command and the others are its own; a request
is what remains of them once every value has been read, so that carrying one out cannot fail for its
spelling.
-/

namespace GateNet.Command

/-- A path, which is not empty. -/
def path? (text : String) : Option String := if text = "" then none else some text

/-! ### The commands -/

/-- The operations on integers that can be compiled to gates. -/
inductive Arithmetic where
  | add
  | sub
  | neg
  | lt
  | le
  | eq
  | div
deriving DecidableEq

namespace Arithmetic

/-- The operation with this name on the command line. -/
def ofName? : String → Option Arithmetic
  | "add" => some .add
  | "sub" => some .sub
  | "neg" => some .neg
  | "lt" => some .lt
  | "le" => some .le
  | "eq" => some .eq
  | "div" => some .div
  | _ => none

/-- The name of an operation in messages. -/
def label : Arithmetic → String
  | .add => "Add"
  | .sub => "Sub"
  | .neg => "Neg"
  | .lt => "Lt"
  | .le => "Le"
  | .eq => "Eq"
  | .div => "Div"

/-- The operation delivers a truth value. -/
def isComparison : Arithmetic → Bool
  | .lt | .le | .eq => true
  | _ => false

end Arithmetic

/-- An operation to compile and evaluate. -/
structure SynthRequest where
  operation : Arithmetic
  width : Nat
  a : Int
  b : Option Int
  circuitPath : Option String
  valuesPath : Option String
deriving DecidableEq

/-- An evaluation of a netlist on a value file. -/
structure RunRequest where
  circuitPath : String
  valuesPath : String
  signed : Bool
deriving DecidableEq

/-- What a command line asks for. -/
inductive Request where
  | version
  | run (request : RunRequest)
  | synth (request : SynthRequest)
deriving DecidableEq

/-! ### Reading a request -/

/-- The options of the command that evaluates. -/
inductive RunOption where
  | signed

/-- How the options of the command that evaluates are spelled. -/
def runOptions : List (OptionSpec RunOption) :=
  [{ key := .signed, long := some "signed", takesValue := false }]

/-- What has been given for an evaluation so far. -/
structure RunDraft where
  circuitPath : Option String := none
  valuesPath : Option String := none
  signed : Bool := false

/-- One more item: the first positional argument is the circuit and the second the values. -/
def RunDraft.add (d : RunDraft) : Item RunOption → Except Refusal RunDraft
  | .positional text => do
    if d.circuitPath.isNone then
      return { d with circuitPath := ← fill d.circuitPath (path? text) }
    else
      return { d with valuesPath := ← fill d.valuesPath (path? text) }
  | .option .signed _ => if d.signed then .error .usage else .ok { d with signed := true }
  | .help => .error .help

/-- The request, once everything has been given. -/
def RunDraft.complete (d : RunDraft) : Except Refusal RunRequest := do
  return ⟨← require d.circuitPath, ← require d.valuesPath, d.signed⟩

/-- The request in the arguments of the command that evaluates. -/
def runRequest : List String → Except Refusal RunRequest :=
  readItems runOptions RunDraft.add RunDraft.complete {}

/-- The options of the command that compiles. -/
inductive SynthOption where
  | width
  | a
  | b
  | circuitPath
  | valuesPath

/-- How the options of the command that compiles are spelled. -/
def synthOptions : List (OptionSpec SynthOption) :=
  [{ key := .width, long := some "width", short := some 'w' },
   { key := .a, short := some 'a', takesNegative := true },
   { key := .b, short := some 'b', takesNegative := true },
   { key := .circuitPath, long := some "emit-circuit" },
   { key := .valuesPath, long := some "emit-values" }]

/-- The width of operands for which none is given. -/
def defaultWidth : Nat := 8

/-- What has been given for a compilation so far. -/
structure SynthDraft where
  operation : Option Arithmetic := none
  width : Option Nat := none
  a : Option Int := none
  b : Option Int := none
  circuitPath : Option String := none
  valuesPath : Option String := none

/-- One more item: the positional argument is the operation. -/
def SynthDraft.add (d : SynthDraft) : Item SynthOption → Except Refusal SynthDraft
  | .positional text => do
    return { d with operation := ← fill d.operation (Arithmetic.ofName? text) }
  | .option .width text => do
    return { d with width := ← fill d.width (text.bind (Text.number? ·.toList)) }
  | .option .a text => do
    return { d with a := ← fill d.a (text.bind (Text.integer? ·.toList)) }
  | .option .b text => do
    return { d with b := ← fill d.b (text.bind (Text.integer? ·.toList)) }
  | .option .circuitPath text => do
    return { d with circuitPath := ← fill d.circuitPath (text.bind path?) }
  | .option .valuesPath text => do
    return { d with valuesPath := ← fill d.valuesPath (text.bind path?) }
  | .help => .error .help

/-- The request, once everything has been given that has to be. -/
def SynthDraft.complete (d : SynthDraft) : Except Refusal SynthRequest := do
  let operation ← require d.operation
  let a ← require d.a
  return { operation, width := d.width.getD defaultWidth, a, b := d.b,
           circuitPath := d.circuitPath, valuesPath := d.valuesPath }

/-- The request in the arguments of the command that compiles. -/
def synthRequest : List String → Except Refusal SynthRequest :=
  readItems synthOptions SynthDraft.add SynthDraft.complete {}

/-- The names that a command line may start with. -/
def commandNames : List String := ["run", "synth", "help"]

/-- Help is there on the program as a whole and on each command. -/
def helpOn : List String → Refusal
  | [] => .help
  | [name] => if name ∈ commandNames then .help else .usage
  | _ => .usage

/-- What the arguments ask for. -/
def parseArguments : List String → Except Refusal Request
  | "run" :: args => .run <$> runRequest args
  | "synth" :: args => .synth <$> synthRequest args
  | "help" :: topics => .error (helpOn topics)
  | arg :: _ =>
    match arg.toList with
    | '-' :: 'V' :: _ => .ok .version
    | '-' :: 'h' :: _ => .error .help
    | _ =>
      if arg = "--version" then .ok .version
      else if arg = "--help" then .error .help
      else .error .usage
  | [] => .error .usage

end GateNet.Command
