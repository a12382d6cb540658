import GateNet.Command.Request
import GateNet.Command.Report
import GateNet.Netlist.File
import GateNet.Circuit.Evaluation
import GateNet.Word.Divider

/-!
Carrying out commands. One command evaluates a netlist on a value file; the other builds the circuit of
an integer operation, evaluates it on its operands and writes both out, so that the first command run on
what the second wrote prints the same bits. What was printed before a failure stays printed, and a file
written before it stays written.
-/

namespace GateNet.Command

/-- A command under way: it prints lines, uses files and may end in a report. -/
abbrev Program (m : Type → Type) := ExceptT Report (StateT String m)

variable {m : Type → Type} [Monad m]

/-- Print a line. -/
def say (line : String) : Program m Unit := modify (· ++ line ++ "\n")

/-- Go on with the result of a circuit operation, or end in its report. -/
def ofCircuit {α : Type} (result : Except CircuitError α) : Program m α :=
  ExceptT.mk (pure (result.mapError .ofCircuitError))

/-- The same for an operation on files. -/
def ofHost {α : Type} (action : m (Except CircuitError α)) : Program m α :=
  ExceptT.mk do return (← StateT.lift action).mapError .ofCircuitError

/-- The same for a cause that no line is at fault for. -/
def ofCause {α : Type} (result : Except Cause α) : Program m α :=
  ofCircuit (result.mapError .general)

/-- The same for an integer operation. -/
def ofInteger {α : Type} (result : Except IntegerError α) : Program m α :=
  ExceptT.mk (pure (result.mapError .ofIntegerError))

/-- Build on a circuit. -/
def ofBuild {α : Type} (step : Build α) (c : Circuit) : Program m (α × Circuit) :=
  ExceptT.mk (pure ((step c).mapError .ofFault))

/-- A report from inside says what was being done. -/
def within {α : Type} (context : String) (program : Program m α) : Program m α :=
  ExceptT.mk do return (← program.run).mapError (.within context)

/-! ### Evaluating a netlist -/

/-- Print the outputs of a netlist on a value file. -/
def evaluate (host : Host m) (r : RunRequest) : Program m Unit := do
  let c ← within s!"loading netlist {r.circuitPath}" (ofHost (Netlist.readFrom host r.circuitPath))
  let c ← within s!"loading values {r.valuesPath}"
    (ofHost (Attempt.result <$> Values.loadFrom host r.valuesPath c))
  let c ← within "evaluating circuit" (ofCause c.execute.result)
  let bits ← ofCause c.outputBits
  say bits
  if r.signed then
    say (toString (← ofInteger (TwosComplement.signedOfText bits)))

/-! ### Compiling an operation -/

/-- The inputs of an operand, holding its value. -/
def operand (context : String) (width : Nat) (v : Int) (c : Circuit) : Program m (Word × Circuit) := do
  let (x, c) ← ofBuild (Word.issueInputs width) c
  let c ← within context (ofInteger (x.assign c v).result)
  return (x, c)

/-- The gates of a binary operation. -/
def binary : Arithmetic → Word → Word → Build Word
  | .add, a, b => a.add b
  | .sub, a, b => a.sub b
  | .neg, a, _ => a.negate
  | .div, a, b => a.div b
  | .lt, a, b => do return ⟨[← a.less b]⟩
  | .le, a, b => do return ⟨[← a.lessOrEqual b]⟩
  | .eq, a, b => do return ⟨[← a.equal b]⟩

/-- The operands of an operation and its gates. -/
def compile (r : SynthRequest) : Program m (Word × Circuit) := do
  let (a, c) ← operand "operand a" r.width r.a {}
  match r.operation, r.b with
  | .neg, _ => ofBuild a.negate c
  | operation, some v =>
    let (b, c) ← operand "operand b" r.width v c
    ofBuild (binary operation a b) c
  | operation, none => throw ⟨s!"`{operation.label}` needs a second operand (-b)", []⟩

/-- A result in plain words: a truth value for a comparison, otherwise the signed number. -/
def reading (operation : Arithmetic) (result : Word) (bits : String) (c : Circuit) :
    Except Cause String := do
  if operation.isComparison then
    return if bits = "1" then "true" else "false"
  else
    return toString (← result.decodeSigned c)

/-- Write to the path that is asked for, if one is. -/
def emit (path : Option String) (write : String → m (Except CircuitError Unit)) : Program m Unit :=
  match path with
  | some path => ofHost (write path)
  | none => pure ()

/-- Compile an operation, print its result and its gates, and write its circuit and values. -/
def synthesize (host : Host m) (r : SynthRequest) : Program m Unit := do
  if r.width = 0 then
    throw ⟨"width must be at least one bit", []⟩
  let (result, c) ← compile r
  let c ← ofCause (result.markOutput c).result
  let c ← within "evaluating circuit" (ofCause c.execute.result)
  let bits ← ofCause c.outputBits
  say bits
  say (← ofCause (reading r.operation result bits c))
  say c.tally.text
  emit r.circuitPath (Netlist.writeTo host · c)
  emit r.valuesPath (Values.writeTo host · c)

/-! ### Exits -/

/-- What a command leaves behind: its exit code, what it printed, and what it printed about failures. -/
structure Exit where
  code : Nat
  output : String := ""
  failures : String := ""
deriving DecidableEq

/-- The version that the program reports. -/
def versionText : String := "gatecirc 0.1.0\n"

/-- How the program is called. The wording is this library's own: only the exit code, and which arguments
ask for this text, are laid down. -/
def usageText : String :=
  "Usage: gatecirc run [--signed] <CIRCUIT> <VALUES>\n" ++
  "       gatecirc synth [-w N] -a A [-b B] [--emit-circuit P] [--emit-values P] <OP>\n" ++
  "       gatecirc --version\n"

/-- The exit of a program that has run. -/
def Exit.ofProgram (program : Program m Unit) : m Exit := do
  let (result, output) ← program.run.run ""
  match result with
  | .ok () => return { code := 0, output }
  | .error report => return { code := 1, output, failures := report.text }

/-- Carry out a command line. -/
def perform (host : Host m) (args : List String) : m Exit :=
  match parseArguments args with
  | .ok .version => return { code := 0, output := versionText }
  | .ok (.run request) => Exit.ofProgram (evaluate host request)
  | .ok (.synth request) => Exit.ofProgram (synthesize host request)
  | .error .help => return { code := 0, output := usageText }
  | .error .usage => return { code := 2, failures := usageText }

end GateNet.Command
