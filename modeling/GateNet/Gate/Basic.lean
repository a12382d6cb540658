import GateNet.Gate.Function

/-!
Gates between numbered wires. A gate applies a two-input function to two wires and drives a third, and since no wire has two
drivers the driven wire also serves as the gate's identity.
-/

namespace GateNet

/-- A function `function` of the wires `a` and `b` that drives `out`. -/
structure Gate where
  function : GateFunction
  a : Nat
  b : Nat
  out : Nat
deriving DecidableEq

namespace Gate

/-- The same function of the same wires, driving another one. -/
def withOutput (g : Gate) (out : Nat) : Gate := { g with out }

/-- The output for the values read from the gate's two wires. -/
def eval (g : Gate) (a b : Bool) : Bool := g.function.eval a b

/-- A gate is written as its function, its two inputs and its output. -/
def text (g : Gate) : String := s!"{g.function.text} {g.a} {g.b} {g.out}"

end Gate

end GateNet
