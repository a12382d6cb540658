import Std.Data.ExtTreeMap
import GateNet.Wire.Polarity

/-!
The wires of a circuit. The store maps each registered wire to its raw value and its polarity; wires
may be numbered with gaps and are listed in ascending order. Every write names one registered wire and
changes one field of its cell, so a store is determined by the last write to each field.
-/

namespace GateNet

/-- A wire's raw value, if it is known, and the polarity under which the wire is read. -/
structure Cell where
  value : Option Bool
  polarity : Polarity
deriving DecidableEq

/-- The value that readers of the wire see. -/
def Cell.effective (c : Cell) : Option Bool := c.value.map c.polarity.resolve

/-- The registered wires with their cells. -/
@[ext] structure WireStore where
  cells : Std.ExtTreeMap Nat Cell := ∅

namespace WireStore

/-- The wire is registered. -/
def contains (s : WireStore) (w : Nat) : Bool := s.cells.contains w

/-- The number of registered wires. -/
def size (s : WireStore) : Nat := s.cells.size

/-- The registered wires in ascending order. -/
def entries (s : WireStore) : List (Nat × Cell) := s.cells.toList

/-- The cell of a registered wire. -/
def cell (s : WireStore) (w : Nat) : Except WireError Cell :=
  match s.cells[w]? with
  | some c => .ok c
  | none => .error (.notFound w)

/-- Register a wire that is not registered yet. -/
def insert (s : WireStore) (w : Nat) (c : Cell) : Except WireError WireStore :=
  if s.contains w then .error (.alreadyExists w) else .ok ⟨s.cells.insert w c⟩

/-- Replace the cell of a wire. -/
def put (s : WireStore) (w : Nat) (c : Cell) : WireStore := ⟨s.cells.insert w c⟩

/-- Write the raw value of a registered wire. -/
def setValue (s : WireStore) (w : Nat) (value : Bool) : Except WireError WireStore := do
  let c ← s.cell w
  return s.put w { c with value := some value }

/-- Flip the polarity of a registered wire. -/
def flip (s : WireStore) (w : Nat) : Except WireError WireStore := do
  let c ← s.cell w
  let polarity ← c.polarity.flip w
  return s.put w { c with polarity }

/-- The value of a registered wire as its readers see it. -/
def effective (s : WireStore) (w : Nat) : Except WireError (Option Bool) := do
  return (← s.cell w).effective

/-! ### What the operations do to the cells -/

theorem getElem?_put (s : WireStore) (w v : Nat) (c : Cell) :
    (s.put w c).cells[v]? = if w = v then some c else s.cells[v]? := by
  simp [put, Std.ExtTreeMap.getElem?_insert]

theorem cell_eq_ok_iff {s : WireStore} {w : Nat} {c : Cell} :
    s.cell w = .ok c ↔ s.cells[w]? = some c := by
  cases h : s.cells[w]? <;> simp [cell, h]

/-- A wire can be registered exactly once. -/
theorem insert_eq_ok_iff {s s' : WireStore} {w : Nat} {c : Cell} :
    s.insert w c = .ok s' ↔ s.contains w = false ∧ s' = s.put w c := by
  cases h : s.contains w <;> simp [insert, put, h, eq_comm]

end WireStore

end GateNet
