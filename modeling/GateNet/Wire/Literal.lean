/-!
Wires and the literals that read them. A wire is a number. A literal is a wire under a polarity and is
written as one number too: twice the wire, plus one when the wire is read inverted. The two directions
of this code undo each other, so a netlist may use the number and the circuit the pair.
-/

namespace GateNet

/-- A wire together with the polarity under which it is read. -/
structure Literal where
  wire : Nat
  inverted : Bool
deriving DecidableEq

namespace Literal

/-- The literal with this index: even indices are plain, odd ones inverted. -/
def ofIndex (index : Nat) : Literal := ⟨index / 2, index % 2 == 1⟩

/-- The number that stands for the literal in a netlist. -/
def index (l : Literal) : Nat := 2 * l.wire + l.inverted.toNat

@[simp] theorem index_ofIndex (i : Nat) : (ofIndex i).index = i := by
  rcases Nat.mod_two_eq_zero_or_one i with h | h <;> simp [ofIndex, index, h] <;> omega

@[simp] theorem ofIndex_index (l : Literal) : ofIndex l.index = l := by
  rcases l with ⟨w, _ | _⟩
  · simp [ofIndex, index]
  · have half : (2 * w + 1) / 2 = w := by omega
    simp [ofIndex, index, half]

end Literal

end GateNet
