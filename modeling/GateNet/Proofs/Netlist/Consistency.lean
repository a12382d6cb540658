import GateNet.Netlist.Reader
import GateNet.Proofs.Store

/-!
What the statements of a netlist say, read as a list: which wires they declare, which gates and outputs
they list, and under which polarities a wire is read from its declaration on. A netlist is consistent
if every statement is admissible after those before it and three conditions hold of the whole: no wire
changes its polarity twice, every output is driven, and no gate reads the output of a later one.
-/

namespace GateNet

namespace Statement

/-- The wire that a statement declares. -/
def wire : Statement → Nat
  | .input l => l.wire
  | .output l _ => l.wire
  | .gate _ out _ _ => out

/-- The literals that a statement reads, in order. -/
def reads : Statement → List Literal
  | .gate _ _ a b => [a, b]
  | _ => []

/-- The wire of an input. -/
def input? : Statement → Option Nat
  | .input l => some l.wire
  | _ => none

/-- The literal of an output. -/
def output? : Statement → Option Literal
  | .output l _ => some l
  | _ => none

/-- The gate of a gate line. -/
def gate? : Statement → Option Gate
  | .gate f out a b => some ⟨f, a.wire, b.wire, out⟩
  | _ => none

/-- The value that a statement gives to a wire. -/
def seedFor? (w : Nat) : Statement → Option Bool
  | .output l seed => if l.wire = w then seed else none
  | _ => none

/-- The polarity in which a statement declares its wire; only inputs have one of their own. -/
def declaredInverted : Statement → Bool
  | .input l => l.inverted
  | _ => false

end Statement

/-- How often a sequence of polarities changes. -/
def changes : List Bool → Nat
  | a :: b :: rest => (if a = b then 0 else 1) + changes (b :: rest)
  | _ => 0

/-- The polarity of a wire that was declared and read under the polarities given, in order. -/
def Polarity.ofHistory (history : List Bool) : Polarity :=
  ⟨history.getLastD false, changes history != 0⟩

namespace Netlist

/-- The statements of a text, line by line; lines that say nothing are passed over. -/
def statementsOf (text : String) : Except Cause (List Statement) := do
  return (← (Text.lines text.toList).mapM Statement.ofLine).filterMap id

/-- The wires that are declared. -/
def declared (ss : List Statement) : List Nat := ss.map Statement.wire

/-- The wires that are declared as inputs. -/
def inputs (ss : List Statement) : List Nat := ss.filterMap Statement.input?

/-- The outputs in the order of their declaration. -/
def outputs (ss : List Statement) : List Literal := ss.filterMap Statement.output?

def gates (ss : List Statement) : List Gate := ss.filterMap Statement.gate?

/-- The wires that gates drive. -/
def driven (ss : List Statement) : List Nat := (gates ss).map Gate.out

/-- The value that the statements give to a wire. -/
def seed? (ss : List Statement) (w : Nat) : Option Bool := ss.findSome? (Statement.seedFor? w)

/-- The polarities under which gates read a wire, in the order of the text. -/
def readings (ss : List Statement) (w : Nat) : List Bool :=
  ((ss.flatMap Statement.reads).filter (·.wire == w)).map (·.inverted)

/-- The polarity in which a wire is declared by the first statement that does. -/
def declaredInverted (ss : List Statement) (w : Nat) : Bool :=
  match ss.find? (·.wire == w) with
  | some s => s.declaredInverted
  | none => false

/-- The polarities of a wire: that of its declaration, then those of its readings. -/
def polarities (ss : List Statement) (w : Nat) : List Bool :=
  declaredInverted ss w :: readings ss w

/-- The statement fits the statements before it. -/
def Admissible (before : List Statement) : Statement → Prop
  | .input l => l.wire ∉ declared before
  | .output l _ => l.wire ∉ (outputs before).map Literal.wire
  | .gate _ out a b =>
    (out ∉ driven before ∧ out ∉ inputs before) ∧
      (a.wire ∈ declared before ∧ a.wire ≠ out) ∧ (b.wire ∈ declared before ∧ b.wire ≠ out)

/-- Every statement is admissible after those before it. -/
def AdmissibleAfter (before : List Statement) : List Statement → Prop
  | [] => True
  | s :: rest => Admissible before s ∧ AdmissibleAfter (before ++ [s]) rest

/-- The statements fit together. -/
structure Consistent (ss : List Statement) : Prop where
  admissible : AdmissibleAfter [] ss
  /-- No wire changes its polarity twice. -/
  polarity : ∀ w, changes (polarities ss w) ≤ 1
  /-- Every output is an input, is driven by a gate, or comes with a value. -/
  outputs_driven : ∀ l seed, Statement.output l seed ∈ ss →
    l.wire ∈ inputs ss ∨ l.wire ∈ driven ss ∨ seed ≠ none
  /-- No gate reads the output of a gate that drives a later wire. -/
  ascending : ∀ g ∈ gates ss, ∀ h ∈ gates ss, h.out = g.a ∨ h.out = g.b → ¬ g.out < h.out

/-- The circuit is the one that the statements describe. -/
structure Describes (ss : List Statement) (c : Circuit) : Prop where
  origin : c.origin = .netlist
  raw? : ∀ w, c.wires.raw? w = seed? ss w
  polarity? : ∀ w, c.wires.polarity? w =
    if w ∈ declared ss then some (.ofHistory (polarities ss w)) else none
  isInput : ∀ w, c.isInput w = true ↔ w ∈ inputs ss
  outputs : c.outputs = outputs ss
  isOutput : ∀ w, c.isOutput w = true ↔ w ∈ (Netlist.outputs ss).map Literal.wire
  gate? : ∀ w, c.gate? w = (gates ss).find? (·.out == w)
  tally : ∀ f, c.tally.count f = (gates ss).countP (·.function == f)
  complements : c.complements = ∅
  inputComplements : c.inputComplements = []
  nextWire : c.nextWire = 0

/-! ### Polarities -/

theorem changes_concat {history : List Bool} (h : history ≠ []) (b : Bool) :
    changes (history ++ [b]) =
      changes history + if history.getLastD false = b then 0 else 1 := by
  induction history with
  | nil => exact absurd rfl h
  | cons a rest ih =>
    cases rest with
    | nil => simp [changes]
    | cons a' rest =>
      have := ih (by simp)
      simp only [List.cons_append, changes] at this ⊢
      rw [this]
      simp only [List.getLastD_cons]
      omega

theorem changes_le_append (xs ys : List Bool) : changes xs ≤ changes (xs ++ ys) := by
  induction ys generalizing xs with
  | nil => simp
  | cons y ys ih =>
    cases xs with
    | nil => simp [changes]
    | cons x xs =>
      have h := ih (x :: xs ++ [y])
      rw [changes_concat (by simp)] at h
      rw [List.append_assoc] at h
      exact Nat.le_trans (Nat.le_add_right _ _) h

/-! ### One statement more -/

variable {ss ts : List Statement} {s : Statement} {w : Nat}

@[simp] theorem declared_concat (ss : List Statement) (s : Statement) :
    declared (ss ++ [s]) = declared ss ++ [s.wire] := by
  simp [declared]

@[simp] theorem inputs_concat (ss : List Statement) (s : Statement) :
    inputs (ss ++ [s]) = inputs ss ++ s.input?.toList := by
  rw [inputs, List.filterMap_append]
  cases s <;> rfl

@[simp] theorem outputs_concat (ss : List Statement) (s : Statement) :
    outputs (ss ++ [s]) = outputs ss ++ s.output?.toList := by
  rw [outputs, List.filterMap_append]
  cases s <;> rfl

@[simp] theorem gates_concat (ss : List Statement) (s : Statement) :
    gates (ss ++ [s]) = gates ss ++ s.gate?.toList := by
  rw [gates, List.filterMap_append]
  cases s <;> rfl

theorem seed?_concat (ss : List Statement) (s : Statement) (w : Nat) :
    seed? (ss ++ [s]) w = (seed? ss w).or (s.seedFor? w) := by
  rw [seed?, seed?, List.findSome?_append, List.findSome?_singleton]

/-- A value comes with the declaration of an output only. -/
theorem seed?_eq_none (hw : w ∉ (outputs ss).map Literal.wire) : seed? ss w = none := by
  rw [seed?, List.findSome?_eq_none_iff]
  intro s hs
  cases s with
  | output l seed =>
    have hl : l.wire ≠ w := fun hl => hw (List.mem_map.mpr
      ⟨l, List.mem_filterMap.mpr ⟨_, hs, rfl⟩, hl⟩)
    simp [Statement.seedFor?, hl]
  | input l => rfl
  | gate f out a b => rfl

theorem find?_declared (h : w ∉ declared ss) : ss.find? (·.wire == w) = none := by
  rw [List.find?_eq_none]
  intro s hs hw
  exact h (List.mem_map.mpr ⟨s, hs, by simpa using hw⟩)

theorem declaredInverted_of_not_mem (h : w ∉ declared ss) : declaredInverted ss w = false := by
  rw [declaredInverted, find?_declared h]

theorem declaredInverted_append (h : w ∈ declared ss) (ts : List Statement) :
    declaredInverted (ss ++ ts) w = declaredInverted ss w := by
  obtain ⟨s, hs, hw⟩ := List.mem_map.mp h
  have hsome : (ss.find? (·.wire == w)).isSome := by
    rw [List.find?_isSome]
    exact ⟨s, hs, by simpa using hw⟩
  rw [declaredInverted, declaredInverted, List.find?_append, Option.or_of_isSome hsome]

theorem declaredInverted_append_right (h : w ∉ declared ss) (ts : List Statement) :
    declaredInverted (ss ++ ts) w = declaredInverted ts w := by
  rw [declaredInverted, declaredInverted, List.find?_append, find?_declared h, Option.none_or]

theorem readings_append (ss ts : List Statement) (w : Nat) :
    readings (ss ++ ts) w = readings ss w ++ readings ts w := by
  simp [readings]

/-- A statement that is no input adds its readings to the polarities of a wire, and nothing else. -/
theorem polarities_concat (hs : s.declaredInverted = false) :
    polarities (ss ++ [s]) w = polarities ss w ++ readings [s] w := by
  have hkeep : declaredInverted (ss ++ [s]) w = declaredInverted ss w := by
    by_cases h : w ∈ declared ss
    · exact declaredInverted_append h [s]
    · rw [declaredInverted_append_right h, declaredInverted_of_not_mem h, declaredInverted]
      by_cases hw : s.wire = w <;> simp [hw, hs]
  rw [polarities, polarities, readings_append, hkeep, List.cons_append]

/-- Nothing has been read from a wire that is declared only now. -/
theorem readings_eq_nil (hr : ∀ l ∈ ss.flatMap Statement.reads, l.wire ∈ declared ss)
    (h : w ∉ declared ss) : readings ss w = [] := by
  rw [readings, List.map_eq_nil_iff, List.filter_eq_nil_iff]
  intro l hl hw
  have hw : l.wire = w := by simpa using hw
  exact h (hw ▸ hr l hl)

/-- Every statement after them adds to the changes of the polarities. -/
theorem changes_polarities_le (hr : ∀ l ∈ ss.flatMap Statement.reads, l.wire ∈ declared ss) :
    changes (polarities ss w) ≤ changes (polarities (ss ++ ts) w) := by
  by_cases h : w ∈ declared ss
  · rw [polarities, polarities, declaredInverted_append h, readings_append, ← List.cons_append]
    exact changes_le_append ..
  · rw [polarities, readings_eq_nil hr h]
    exact Nat.zero_le _

/-- What an admissible statement reads is declared before it. -/
theorem Admissible.reads_declared (adm : Admissible ss s) : ∀ l ∈ s.reads, l.wire ∈ declared ss := by
  intro l hl
  cases s with
  | input l => cases hl
  | output l seed => cases hl
  | gate f out a b =>
    have hl : l = a ∨ l = b := by simpa [Statement.reads] using hl
    rcases hl with rfl | rfl
    · exact adm.2.1.1
    · exact adm.2.2.1

theorem polarities_concat_input (hr : ∀ l ∈ ss.flatMap Statement.reads, l.wire ∈ declared ss)
    {l : Literal} (h : l.wire ∉ declared ss) :
    polarities (ss ++ [.input l]) w = if l.wire = w then [l.inverted] else polarities ss w := by
  have hnone : readings [.input l] w = [] := by simp [readings, Statement.reads]
  rw [polarities, readings_append, hnone, List.append_nil]
  split
  · rename_i hw
    subst hw
    rw [readings_eq_nil hr h, declaredInverted_append_right h]
    simp [declaredInverted, Statement.wire, Statement.declaredInverted]
  · rename_i hw
    by_cases hd : w ∈ declared ss
    · rw [declaredInverted_append hd, polarities]
    · rw [declaredInverted_append_right hd, polarities, declaredInverted_of_not_mem hd]
      simp [declaredInverted, Statement.wire, hw]

end Netlist

end GateNet
