import GateNet.Integer.Error
import GateNet.Circuit.Fault

/-!
Reports of failed commands. A report is a message with the chain of its causes; the causes are listed
below the message, numbered from zero if there are several, and a cause of several lines is indented
under its first one.
-/

namespace GateNet.Command

/-- A message and its causes, outermost first. -/
structure Report where
  message : String
  causes : List String := []
deriving DecidableEq

namespace Report

/-- What was being done when the failure in the report came up. -/
def within (context : String) (r : Report) : Report := ⟨context, r.message :: r.causes⟩

/-- The reason of a file error that a cause carries. -/
def reasons : Cause → List String
  | .inaccessible _ reason => [reason.message]
  | _ => []

/-- An error in a line has the same error without the line as its cause. -/
def ofCircuitError (e : CircuitError) : Report :=
  match e.line with
  | some _ => ⟨e.message, e.cause.message :: reasons e.cause⟩
  | none => ⟨e.message, reasons e.cause⟩

def ofIntegerError : IntegerError → Report
  | .circuit e => ofCircuitError e
  | e => ⟨e.message, []⟩

def ofFault (f : Fault) : Report := ⟨f.message?.getD "operands of different widths", []⟩

/-! ### The text of a report -/

/-- A cause after the mark in front of its first line, its further lines indented. -/
def indented (mark indent cause : String) : String :=
  mark ++ String.intercalate ("\n" ++ indent) (cause.splitOn "\n")

/-- The mark of a numbered cause, which sets the number flush right. -/
def numberMark (n : Nat) : String :=
  let digits := toString n
  String.ofList (List.replicate (5 - digits.length) ' ') ++ digits ++ ": "

/-- The lines that list the causes. -/
def causeLines : List String → List String
  | [] => []
  | [cause] => [indented "    " "    " cause]
  | causes => causes.zipIdx.map fun (cause, n) => indented (numberMark n) "       " cause

/-- The text of a report. -/
def text (r : Report) : String :=
  let causes := match causeLines r.causes with
    | [] => ""
    | lines => "\n\nCaused by:\n" ++ String.intercalate "\n" lines
  s!"Error: {r.message}{causes}\n"

end Report

end GateNet.Command
