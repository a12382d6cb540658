import GateNet.Values
import GateNet.Circuit.Declaration
import GateNet.Circuit.Evaluation
import GateNet.Word.Divider

/-!
Operations on a circuit, as data. Building steps extend a circuit and ignore values; the other
operations mark outputs and write values. Every operation answers, or fails and leaves a circuit to go
on with, or is at fault; the circuits that a list of operations leads to are those that there are.
-/

namespace GateNet

/-- What an operation returns. -/
inductive Answer where
  | nothing
  | wire (w : Nat)
  /-- The sum and the carry of an adder stage. -/
  | sum (bit carry : Nat)
  | word (x : Word)
  /-- The next remainder, and whether the divisor went in. -/
  | division (remainder : Word) (take : Nat)
deriving DecidableEq

/-- A step of building. -/
inductive Construction where
  | issueWire
  | issueInput
  | constant (bit : Bool)
  | addGate (function : GateFunction) (a b : Nat)
  | invert (w : Nat)
  | fullAdder (a b carry : Nat)
  | select (sel whenTrue whenFalse : Nat)
  | issueInputs (width : Nat)
  | add (a b : Word)
  | negate (a : Word)
  | sub (a b : Word)
  | less (a b : Word)
  | lessUnsigned (a b : Word)
  | lessOrEqual (a b : Word)
  | lessOrEqualUnsigned (a b : Word)
  | equal (a b : Word)
  | divisionStep (remainder divisor : Word)
  | div (a b : Word)
deriving DecidableEq

/-- Take a step of building. -/
def Construction.run : Construction → Build Answer
  | .issueWire => .wire <$> Build.issueWire
  | .issueInput => .wire <$> Build.issueInput
  | .constant bit => .wire <$> Build.constant bit
  | .addGate function a b => .wire <$> Build.addGate function a b
  | .invert w => .wire <$> Build.invert w
  | .fullAdder a b carry => (fun (bit, carry) => .sum bit carry) <$> Build.fullAdder a b carry
  | .select sel whenTrue whenFalse => .wire <$> Build.select sel whenTrue whenFalse
  | .issueInputs width => .word <$> Word.issueInputs width
  | .add a b => .word <$> Word.add a b
  | .negate a => .word <$> Word.negate a
  | .sub a b => .word <$> Word.sub a b
  | .less a b => .wire <$> Word.less a b
  | .lessUnsigned a b => .wire <$> Word.lessUnsigned a b
  | .lessOrEqual a b => .wire <$> Word.lessOrEqual a b
  | .lessOrEqualUnsigned a b => .wire <$> Word.lessOrEqualUnsigned a b
  | .equal a b => .wire <$> Word.equal a b
  | .divisionStep remainder divisor =>
    (fun (next, take) => .division next take) <$> Word.divisionStep remainder divisor
  | .div a b => .word <$> Word.div a b

/-- An operation on a circuit. -/
inductive Operation where
  | build (step : Construction)
  /-- A constant word, if its value fits. -/
  | constantWord (width : Nat) (value : Int)
  | addOutput (w : Nat)
  | markOutput (x : Word)
  | assign (w : Nat) (value : Bool)
  | assignWord (x : Word) (value : Int)
  | loadValues (text : String)
  | execute
deriving DecidableEq

/-- How an operation ended. -/
inductive Outcome where
  | answered (answer : Answer) (c : Circuit)
  | failed (error : IntegerError) (c : Circuit)
  | faulty (fault : Fault)

namespace Outcome

/-- The outcome of building on a circuit. -/
def ofBuild (step : Build Answer) (c : Circuit) : Outcome :=
  match step c with
  | .ok (answer, c') => .answered answer c'
  | .error fault => .faulty fault

/-- The outcome of an attempt. -/
def ofAttempt {ε : Type} (toError : ε → IntegerError) (run : Attempt Circuit ε) : Outcome :=
  match run.failure with
  | none => .answered .nothing run.state
  | some e => .failed (toError e) run.state

end Outcome

/-- Carry out an operation. -/
def Operation.run (c : Circuit) : Operation → Outcome
  | .build step => .ofBuild step.run c
  | .constantWord width value =>
    match Word.constant width value with
    | .ok step => .ofBuild (.word <$> step) c
    | .error e => .failed e c
  | .addOutput w => .ofAttempt .ofCause (c.makeOutput w)
  | .markOutput x => .ofAttempt .ofCause (x.markOutput c)
  | .assign w value => .ofAttempt .ofCause (.ofStep c (c.assign w value))
  | .assignWord x value => .ofAttempt id (x.assign c value)
  | .loadValues text => .ofAttempt .circuit (Values.load c text)
  | .execute => .ofAttempt .ofCause c.execute

end GateNet
