/-!
Arguments and options. A command has positional arguments and options in any order; an option with a
value takes the rest of its own argument or the next argument, and after `--` everything is positional.
Arguments are read from left to right and a request for help ends the reading, so what stands after it
is neither read nor refused.
-/

namespace GateNet.Command

variable {κ : Type}

/-! ### Splitting arguments into positional ones and options -/

/-- An option of a command, which the command knows by its key. -/
structure OptionSpec (κ : Type) where
  key : κ
  /-- The long spelling, without its dashes. -/
  long : Option String := none
  /-- The one-letter spelling. -/
  short : Option Char := none
  takesValue : Bool := true
  /-- A negative number may follow as an argument of its own. -/
  takesNegative : Bool := false

/-- An argument that has been recognised. -/
inductive Item (κ : Type) where
  | positional (value : String)
  /-- An option, with its value if it takes one. -/
  | option (key : κ) (value : Option String)
  /-- A request for help. -/
  | help

/-- Why arguments name no command to run. -/
inductive Refusal where
  | usage
  | help

/-- A minus sign and digits. -/
def isNegativeNumber : List Char → Bool
  | '-' :: digits => !digits.isEmpty && digits.all Char.isDigit
  | _ => false

/-- The argument may stand after an option as its value: it does not look like an option itself, or it is
a negative number where those are allowed. -/
def mayBeValue (spec : OptionSpec κ) (arg : String) : Bool :=
  match arg.toList with
  | '-' :: _ :: _ => spec.takesNegative && isNegativeNumber arg.toList
  | _ => true

/-- The parts of an option before and after its equals sign. -/
def splitAssignment (text : List Char) : String × Option String :=
  match text.span (· != '=') with
  | (name, _ :: value) => (String.ofList name, some (String.ofList value))
  | (name, []) => (String.ofList name, none)

/-- The value in the rest of a one-letter option's argument. -/
def attachedValue : List Char → Option String
  | [] => none
  | '=' :: value => some (String.ofList value)
  | value => some (String.ofList value)

/-- How one argument is to be read. -/
inductive Reading (κ : Type) where
  | complete (item : Item κ)
  /-- An option whose value is the next argument. -/
  | awaiting (spec : OptionSpec κ)

/-- An option that is spelled out, with the value after its equals sign. -/
def readLong (specs : List (OptionSpec κ)) (name : String) (value : Option String) :
    Except Refusal (Reading κ) :=
  match specs.find? (fun spec => spec.long == some name), value with
  | some spec, some value =>
    if spec.takesValue then .ok (.complete (.option spec.key (some value))) else .error .usage
  | some spec, none =>
    if spec.takesValue then .ok (.awaiting spec) else .ok (.complete (.option spec.key none))
  | none, none => if name = "help" then .ok (.complete .help) else .error .usage
  | none, some _ => .error .usage

/-- A one-letter option, with the rest of its argument. -/
def readShort (specs : List (OptionSpec κ)) (letter : Char) (rest : List Char) :
    Except Refusal (Reading κ) :=
  match specs.find? (fun spec => spec.short == some letter), attachedValue rest with
  | some spec, some value => .ok (.complete (.option spec.key (some value)))
  | some spec, none => .ok (.awaiting spec)
  | none, _ => if letter = 'h' then .ok (.complete .help) else .error .usage

/-- One argument that is neither a value nor after `--`. -/
def readArgument (specs : List (OptionSpec κ)) (arg : String) : Except Refusal (Reading κ) :=
  match arg.toList with
  | '-' :: '-' :: text =>
    let (name, value) := splitAssignment text
    readLong specs name value
  | '-' :: letter :: rest => readShort specs letter rest
  | _ => .ok (.complete (.positional arg))

/-- The items of all arguments up to a request for help; the first argument is the value of the option
that awaits one. -/
def scan (specs : List (OptionSpec κ)) :
    Option (OptionSpec κ) → List String → Except Refusal (List (Item κ))
  | none, [] => .ok []
  | some _, [] => .error .usage
  | some spec, arg :: rest =>
    if mayBeValue spec arg then do
      let items ← scan specs none rest
      return .option spec.key (some arg) :: items
    else .error .usage
  | none, arg :: rest =>
    if arg = "--" then .ok (rest.map .positional)
    else do
      match ← readArgument specs arg with
      | .complete .help => return [.help]
      | .complete item =>
        let items ← scan specs none rest
        return item :: items
      | .awaiting spec => scan specs (some spec) rest

/-! ### What the items say -/

/-- The value that has to be there. -/
def require {α : Type} : Option α → Except Refusal α
  | some a => .ok a
  | none => .error .usage

/-- A slot filled with a value, which has to be there and can be given only once. -/
def fill {α : Type} (slot value : Option α) : Except Refusal (Option α) :=
  match slot with
  | none => some <$> require value
  | some _ => .error .usage

/-- What the arguments say. Every item is checked as it is added, so of a bad item and a request for
help the one that comes first decides. -/
def readItems {δ ρ : Type} (specs : List (OptionSpec κ)) (add : δ → Item κ → Except Refusal δ)
    (complete : δ → Except Refusal ρ) (start : δ) (args : List String) : Except Refusal ρ := do
  let items ← scan specs none args
  complete (← items.foldlM add start)

end GateNet.Command
