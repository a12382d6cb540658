/-!
The polarity under which a wire is registered. A polarity may be flipped once in its life: a second
flip would mean that two builders inverted the same signal, so it is refused rather than undone.
-/

namespace GateNet

/-- What can go wrong with a wire. -/
inductive WireError where
  /-- No such wire is registered. -/
  | notFound (wire : Nat)
  /-- The wire is registered already. -/
  | alreadyExists (wire : Nat)
  /-- The wire's polarity has been flipped before. -/
  | doubleInversion (wire : Nat)
deriving DecidableEq

/-- The text of a wire error. -/
def WireError.message : WireError → String
  | .notFound w => s!"Wire with id {w} not found"
  | .alreadyExists w => s!"Wire with id {w} already exists"
  | .doubleInversion w => s!"Wire instance {w} is inverted twice"

/-- Whether a wire is read inverted, and whether that has been flipped since it was registered. -/
structure Polarity where
  inverted : Bool
  flipped : Bool := false
deriving DecidableEq

namespace Polarity

/-- The opposite polarity, unless it has been taken once before. -/
def flip (p : Polarity) (wire : Nat) : Except WireError Polarity :=
  if p.flipped then .error (.doubleInversion wire) else .ok ⟨!p.inverted, true⟩

/-- A raw value as seen under the polarity. -/
def resolve (p : Polarity) (raw : Bool) : Bool := raw ^^ p.inverted

end Polarity

end GateNet
