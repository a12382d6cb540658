import Mathlib.Logic.Relation
import GateNet.Operation
import GateNet.Proofs.Store

/-!
What the acts of building do to a circuit. They extend it by five kinds of growth: a plain wire, an
input, a gate, the complement of an input and that of a gate output, each on the next wire. A fault that
is not the caller's says that this wire was in use.
-/

namespace GateNet

open Relation

/-- A fault that no caller brings about: the wire that is issued next, or its driver, is there already. -/
def Fault.Internal : Fault → Prop
  | .unusableWire _ => True
  | .driverClash _ => True
  | _ => False

namespace Circuit

/-- The wire that would be issued next is registered or driven already. -/
def NextTaken (c : Circuit) : Prop :=
  c.origin ≠ .netlist ∧ (c.wires.contains c.nextWire = true ∨ c.isGateOutput c.nextWire = true)

/-- The next wire can be issued: the circuit is not one of a netlist, and the wire is not in use. -/
structure CanIssue (c : Circuit) : Prop where
  origin : c.origin ≠ .netlist
  unused : c.wires.contains c.nextWire = false

/-- The next wire is none that is registered. -/
theorem CanIssue.ne {c : Circuit} (can : c.CanIssue) {w : Nat} (hw : c.wires.contains w = true) :
    c.nextWire ≠ w := by
  rintro rfl
  rw [can.unused] at hw
  cases hw

/-- The circuit after its next wire is issued. -/
def issue (c : Circuit) (inverted : Bool) (value : Option Bool) : Circuit :=
  { c with
    origin := .synthesis
    wires := c.wires.put c.nextWire ⟨value, ⟨inverted, false⟩⟩
    nextWire := c.nextWire + 1 }

/-- The circuit after a gate is filed under the wire it drives. -/
def file (c : Circuit) (g : Gate) : Circuit :=
  { c with gates := c.gates.insert g.out g, tally := c.tally.add g.function }

/-- The circuit after two wires are noted to be complements of each other. -/
def pairUp (c : Circuit) (w v : Nat) : Circuit :=
  { c with complements := (c.complements.insert w v).insert v w }

/-- The circuit after its next wire is issued as an input. -/
def withInput (c : Circuit) : Circuit :=
  { c.issue false none with inputs := c.inputs.insert c.nextWire }

/-- The circuit after its next wire is issued and driven by a gate. -/
def withGate (c : Circuit) (function : GateFunction) (a b : Nat) : Circuit :=
  (c.issue false none).file ⟨function, a, b, c.nextWire⟩

/-- The circuit after its next wire is issued as the complement of an input. -/
def withInputComplement (c : Circuit) (w : Nat) (cell : Cell) : Circuit :=
  { (c.issue false (cell.effective.map (!·))).pairUp w c.nextWire with
    inputComplements := c.inputComplements ++ [(w, c.nextWire)] }

theorem mem_inputComplements {c : Circuit} {w : Nat} {cell : Cell} {p : Nat × Nat} :
    p ∈ (c.withInputComplement w cell).inputComplements ↔
      p = (w, c.nextWire) ∨ p ∈ c.inputComplements := by
  rw [withInputComplement, List.mem_append, List.mem_singleton, or_comm]

/-- The circuit after its next wire is issued as the complement of a gate output. -/
def withGateComplement (c : Circuit) (w : Nat) (g : Gate) (cell : Cell) : Circuit :=
  ((c.issue (!cell.polarity.inverted) cell.value).file (g.withOutput c.nextWire)).pairUp w c.nextWire

/-- A single act of building. -/
inductive Growth : Circuit → Circuit → Prop
  | wire {c : Circuit} (value : Option Bool) : c.CanIssue → Growth c (c.issue false value)
  | input {c : Circuit} : c.CanIssue → Growth c c.withInput
  | gate {c : Circuit} (function : GateFunction) {a b : Nat} : c.CanIssue →
      c.wires.contains a = true → c.wires.contains b = true → c.isGateOutput c.nextWire = false →
      Growth c (c.withGate function a b)
  | inputComplement {c : Circuit} {w : Nat} {cell : Cell} : c.CanIssue → c.complement? w = none →
      c.wires.cells[w]? = some cell → c.isInput w = true → Growth c (c.withInputComplement w cell)
  | gateComplement {c : Circuit} {w : Nat} {g : Gate} {cell : Cell} : c.CanIssue →
      c.complement? w = none → c.wires.cells[w]? = some cell → c.isInput w = false →
      c.gate? w = some g → c.isGateOutput c.nextWire = false →
      Growth c (c.withGateComplement w g cell)

/-- Every act of building issues the next wire, and nothing happens to the other wires. -/
theorem Growth.issues {c d : Circuit} (step : Growth c d) :
    c.CanIssue ∧ d.origin = .synthesis ∧ d.nextWire = c.nextWire + 1 ∧ d.outputs = c.outputs ∧
      ∃ cell, d.wires = c.wires.put c.nextWire cell := by
  cases step with
  | wire value can => exact ⟨can, rfl, rfl, rfl, _, rfl⟩
  | input can => exact ⟨can, rfl, rfl, rfl, _, rfl⟩
  | gate function can ha hb free => exact ⟨can, rfl, rfl, rfl, _, rfl⟩
  | inputComplement can memo hc hi => exact ⟨can, rfl, rfl, rfl, _, rfl⟩
  | gateComplement can memo hc hi hg free => exact ⟨can, rfl, rfl, rfl, _, rfl⟩

end Circuit

namespace Build

/-! ### Steps of building taken apart -/

variable {α β : Type} {c c' : Circuit}

theorem pure_ok_iff {a b : α} : (pure a : Build α) c = .ok (b, c') ↔ b = a ∧ c' = c := by
  show (Except.ok (a, c) : Except Fault (α × Circuit)) = .ok (b, c') ↔ b = a ∧ c' = c
  simp [eq_comm]

theorem bind_ok_iff {m : Build α} {f : α → Build β} {b : β} :
    (m >>= f) c = .ok (b, c') ↔ ∃ a d, m c = .ok (a, d) ∧ f a d = .ok (b, c') := by
  simp only [bind, StateT.bind, Except.bind]
  cases h : m c with
  | error e => simp
  | ok p =>
    constructor
    · exact fun hf => ⟨p.1, p.2, rfl, hf⟩
    · rintro ⟨a, d, he, hf⟩
      cases he
      exact hf

theorem bind_error_iff {m : Build α} {f : α → Build β} {e : Fault} :
    (m >>= f) c = .error e ↔ m c = .error e ∨ ∃ a d, m c = .ok (a, d) ∧ f a d = .error e := by
  simp only [bind, StateT.bind, Except.bind]
  cases h : m c with
  | error e' => simp
  | ok p =>
    constructor
    · exact fun hf => .inr ⟨p.1, p.2, rfl, hf⟩
    · rintro (he | ⟨a, d, he, hf⟩)
      · cases he
      · cases he
        exact hf

theorem map_ok_iff {m : Build α} {f : α → β} {b : β} :
    (f <$> m) c = .ok (b, c') ↔ ∃ a, m c = .ok (a, c') ∧ f a = b := by
  rw [map_eq_pure_bind, bind_ok_iff]
  simp only [pure_ok_iff]
  constructor
  · rintro ⟨a, d, hm, rfl, rfl⟩
    exact ⟨a, hm, rfl⟩
  · rintro ⟨a, hm, rfl⟩
    exact ⟨a, c', hm, rfl, rfl⟩

theorem throw_ok_iff {e : Fault} {b : α} : (throw e : Build α) c = .ok (b, c') ↔ False := by
  simp [throw, throwThe, MonadExceptOf.throw, StateT.lift, bind, Except.bind]

theorem modify_ok_iff {f : Circuit → Circuit} {u : Unit} :
    (modify f : Build Unit) c = .ok (u, c') ↔ c' = f c := by
  show (Except.ok ((), f c) : Except Fault (Unit × Circuit)) = .ok (u, c') ↔ c' = f c
  simp [eq_comm]

theorem get_ok_iff {d : Circuit} : (get : Build Circuit) c = .ok (d, c') ↔ d = c ∧ c' = c := by
  show (Except.ok (c, c) : Except Fault (Circuit × Circuit)) = .ok (d, c') ↔ d = c ∧ c' = c
  simp [eq_comm]

/-! ### What the single acts do -/

theorem freshWire_ok_iff {inverted : Bool} {value : Option Bool} {w : Nat} :
    freshWire inverted value c = .ok (w, c') ↔
      c.CanIssue ∧ w = c.nextWire ∧ c' = c.issue inverted value := by
  by_cases ho : c.origin = .netlist
  · simp only [freshWire, ho, if_true]
    exact ⟨fun h => by simp at h, fun h => absurd ho h.1.origin⟩
  · cases hc : c.wires.contains c.nextWire with
    | true =>
      simp only [freshWire, ho, if_false, WireStore.insert, hc, if_true]
      exact ⟨fun h => by simp at h, fun h => by simp [h.1.unused] at hc⟩
    | false =>
      have can : c.CanIssue := ⟨ho, hc⟩
      simp [freshWire, ho, WireStore.insert, hc, can, Circuit.issue, WireStore.put, eq_comm]

theorem requireOperands_ok_iff {a b : Nat} {u : Unit} :
    requireOperands a b c = .ok (u, c') ↔
      c.wires.contains a = true ∧ c.wires.contains b = true ∧ c' = c := by
  cases ha : c.wires.contains a <;> cases hb : c.wires.contains b <;>
    simp [requireOperands, ha, hb, eq_comm]

theorem drive_ok_iff {g : Gate} {u : Unit} :
    drive g c = .ok (u, c') ↔ c.isGateOutput g.out = false ∧ c' = c.file g := by
  cases h : c.isGateOutput g.out <;>
    simp [drive, Circuit.addDriver, h, Circuit.file, eq_comm]

theorem issueInput_ok_iff {w : Nat} :
    issueInput c = .ok (w, c') ↔ c.CanIssue ∧ w = c.nextWire ∧ c' = c.withInput := by
  simp only [issueInput, issueWire, bind_ok_iff, freshWire_ok_iff, modify_ok_iff, pure_ok_iff]
  constructor
  · rintro ⟨v, d, ⟨can, rfl, rfl⟩, -, d', rfl, rfl, rfl⟩
    exact ⟨can, rfl, rfl⟩
  · rintro ⟨can, rfl, rfl⟩
    exact ⟨_, _, ⟨can, rfl, rfl⟩, (), _, rfl, rfl, rfl⟩

theorem addGate_ok_iff {function : GateFunction} {a b w : Nat} :
    addGate function a b c = .ok (w, c') ↔
      c.CanIssue ∧ c.wires.contains a = true ∧ c.wires.contains b = true ∧
        c.isGateOutput c.nextWire = false ∧ w = c.nextWire ∧ c' = c.withGate function a b := by
  simp only [addGate, issueWire, bind_ok_iff, requireOperands_ok_iff, freshWire_ok_iff,
    drive_ok_iff, pure_ok_iff]
  constructor
  · rintro ⟨-, d, ⟨ha, hb, rfl⟩, v, d', ⟨can, rfl, rfl⟩, -, d'', ⟨free, rfl⟩, rfl, rfl⟩
    exact ⟨can, ha, hb, free, rfl, rfl⟩
  · rintro ⟨can, ha, hb, free, rfl, rfl⟩
    exact ⟨(), c, ⟨ha, hb, rfl⟩, _, _, ⟨can, rfl, rfl⟩, (), _, ⟨free, rfl⟩, rfl, rfl⟩

theorem complementInput_ok_iff {w v : Nat} {cell : Cell} :
    complementInput w cell.effective c = .ok (v, c') ↔
      c.CanIssue ∧ v = c.nextWire ∧ c' = c.withInputComplement w cell := by
  simp only [complementInput, rememberComplement, bind_ok_iff, freshWire_ok_iff, modify_ok_iff,
    pure_ok_iff]
  constructor
  · rintro ⟨v, d, ⟨can, rfl, rfl⟩, -, d', rfl, -, d'', rfl, rfl, rfl⟩
    exact ⟨can, rfl, rfl⟩
  · rintro ⟨can, rfl, rfl⟩
    exact ⟨_, _, ⟨can, rfl, rfl⟩, (), _, rfl, (), _, rfl, rfl, rfl⟩

theorem complementGate_ok_iff {w v : Nat} {g : Gate} {cell : Cell} :
    complementGate w g cell c = .ok (v, c') ↔
      c.CanIssue ∧ c.isGateOutput c.nextWire = false ∧ v = c.nextWire ∧
        c' = c.withGateComplement w g cell := by
  simp only [complementGate, rememberComplement, bind_ok_iff, freshWire_ok_iff, drive_ok_iff,
    modify_ok_iff, pure_ok_iff]
  constructor
  · rintro ⟨v, d, ⟨can, rfl, rfl⟩, -, d', ⟨free, rfl⟩, -, d'', rfl, rfl, rfl⟩
    exact ⟨can, free, rfl, rfl⟩
  · rintro ⟨can, free, rfl, rfl⟩
    exact ⟨_, _, ⟨can, rfl, rfl⟩, (), _, ⟨free, rfl⟩, (), _, rfl, rfl, rfl⟩

/-- Everything that inverting can do: answer from the memory, or issue the complement of an input, a
gate output or a constant. -/
theorem invert_ok_iff {w v : Nat} :
    invert w c = .ok (v, c') ↔
      (c.complement? w = some v ∧ c' = c) ∨
      (c.complement? w = none ∧ c.CanIssue ∧ v = c.nextWire ∧
        ∃ cell, c.wires.cells[w]? = some cell ∧
          ((c.isInput w = true ∧ c' = c.withInputComplement w cell) ∨
           (c.isInput w = false ∧ ∃ g, c.gate? w = some g ∧ c.isGateOutput c.nextWire = false ∧
              c' = c.withGateComplement w g cell) ∨
           (c.isInput w = false ∧ c.gate? w = none ∧
              ∃ bit, cell.effective = some bit ∧ c' = c.issue false (some !bit)))) := by
  simp only [invert, bind_ok_iff, get_ok_iff]
  constructor
  · rintro ⟨e, d, ⟨rfl, rfl⟩, h⟩
    cases memo : d.complement? w with
    | some u =>
      simp only [memo, pure_ok_iff] at h
      exact .inl ⟨by rw [h.1], h.2⟩
    | none =>
      refine .inr ⟨rfl, ?_⟩
      cases hc : d.wires.cells[w]? with
      | none => simp [memo, WireStore.cell, hc, throw_ok_iff] at h
      | some cell =>
        simp only [memo, WireStore.cell, hc] at h
        cases hi : d.isInput w with
        | true =>
          simp only [hi, if_true, complementInput_ok_iff] at h
          exact ⟨h.1, h.2.1, cell, rfl, .inl ⟨rfl, h.2.2⟩⟩
        | false =>
          cases hg : d.gate? w with
          | some g =>
            simp only [hi, hg, Bool.false_eq_true, if_false, complementGate_ok_iff] at h
            exact ⟨h.1, h.2.2.1, cell, rfl, .inr (.inl ⟨rfl, g, rfl, h.2.1, h.2.2.2⟩)⟩
          | none =>
            cases he : cell.effective with
            | none => simp [hi, hg, he, throw_ok_iff] at h
            | some bit =>
              simp only [hi, hg, he, Bool.false_eq_true, if_false, constant, freshWire_ok_iff] at h
              exact ⟨h.1, h.2.1, cell, rfl, .inr (.inr ⟨rfl, rfl, bit, he, h.2.2⟩)⟩
  · rintro (⟨memo, rfl⟩ | ⟨memo, can, rfl, cell, hc, h⟩)
    · exact ⟨_, _, ⟨rfl, rfl⟩, by simp only [memo, pure_ok_iff, and_self]⟩
    · refine ⟨_, _, ⟨rfl, rfl⟩, ?_⟩
      simp only [memo, WireStore.cell, hc]
      rcases h with ⟨hi, rfl⟩ | ⟨hi, g, hg, free, rfl⟩ | ⟨hi, hg, bit, he, rfl⟩
      · simp only [hi, if_true]
        exact complementInput_ok_iff.mpr ⟨can, rfl, rfl⟩
      · simp only [hi, hg, Bool.false_eq_true, if_false]
        exact complementGate_ok_iff.mpr ⟨can, free, rfl, rfl⟩
      · simp only [hi, hg, he, Bool.false_eq_true, if_false]
        exact freshWire_ok_iff.mpr ⟨can, rfl, rfl⟩

/-! ### Internal faults of the single acts -/

variable {e : Fault}

theorem freshWire_fault {inverted : Bool} {value : Option Bool}
    (h : freshWire inverted value c = .error e) (he : e.Internal) : c.NextTaken := by
  by_cases ho : c.origin = .netlist
  · rw [freshWire, if_pos ho, Except.error.injEq] at h
    exact (h ▸ he).elim
  · refine ⟨ho, .inl ?_⟩
    cases hc : c.wires.contains c.nextWire with
    | true => rfl
    | false => simp [freshWire, ho, WireStore.insert, hc] at h

theorem drive_fault {g : Gate} (h : drive g c = .error e) : c.isGateOutput g.out = true := by
  cases hg : c.isGateOutput g.out with
  | true => rfl
  | false => simp [drive, Circuit.addDriver, hg] at h

theorem issueInput_fault (h : issueInput c = .error e) (he : e.Internal) : c.NextTaken := by
  rcases bind_error_iff.mp h with fresh | ⟨_, _, -, rest⟩
  · exact freshWire_fault fresh he
  · cases rest

/-- A wire that was just issued can be driven unless its number has a driver already. -/
theorem drive_fresh_fault {inverted : Bool} {value : Option Bool} {w : Nat} {g : Gate}
    (hw : freshWire inverted value c = .ok (w, c')) (hout : g.out = w)
    (h : drive g c' = .error e) : c.NextTaken := by
  obtain ⟨can, rfl, rfl⟩ := freshWire_ok_iff.mp hw
  have hdriven := drive_fault h
  rw [hout] at hdriven
  exact ⟨can.origin, .inr hdriven⟩

theorem addGate_fault {function : GateFunction} {a b : Nat} (h : addGate function a b c = .error e)
    (he : e.Internal) : c.NextTaken := by
  rcases bind_error_iff.mp h with missing | ⟨_, d, present, rest⟩
  · rw [requireOperands] at missing
    split at missing
    · cases missing
    · cases missing
      exact he.elim
  · obtain ⟨-, -, rfl⟩ := requireOperands_ok_iff.mp present
    rcases bind_error_iff.mp rest with fresh | ⟨w, d', issued, rest'⟩
    · exact freshWire_fault fresh he
    · rcases bind_error_iff.mp rest' with clash | ⟨_, _, -, done⟩
      · exact drive_fresh_fault issued rfl clash
      · cases done

theorem complementInput_fault {w : Nat} {value : Option Bool}
    (h : complementInput w value c = .error e) (he : e.Internal) : c.NextTaken := by
  rcases bind_error_iff.mp h with fresh | ⟨_, _, -, rest⟩
  · exact freshWire_fault fresh he
  · cases rest

theorem complementGate_fault {w : Nat} {g : Gate} {cell : Cell}
    (h : complementGate w g cell c = .error e) (he : e.Internal) : c.NextTaken := by
  rcases bind_error_iff.mp h with fresh | ⟨v, d, issued, rest⟩
  · exact freshWire_fault fresh he
  · rcases bind_error_iff.mp rest with clash | ⟨_, _, -, done⟩
    · exact drive_fresh_fault issued rfl clash
    · cases done

theorem invert_fault {w : Nat} (h : invert w c = .error e) (he : e.Internal) : c.NextTaken := by
  rcases bind_error_iff.mp h with unread | ⟨_, d, read, rest⟩
  · cases unread
  obtain ⟨rfl, rfl⟩ := get_ok_iff.mp read
  cases memo : d.complement? w with
  | some v =>
    rw [memo] at rest
    cases rest
  | none =>
    rw [memo] at rest
    cases hc : d.wires.cell w with
    | error e' =>
      rw [hc] at rest
      cases rest
      exact he.elim
    | ok cell =>
      cases hi : d.isInput w with
      | true =>
        simp only [hc, hi, if_true] at rest
        exact complementInput_fault rest he
      | false =>
        simp only [hc, hi, Bool.false_eq_true, if_false] at rest
        cases hg : d.gate? w with
        | some g =>
          rw [hg] at rest
          exact complementGate_fault rest he
        | none =>
          rw [hg] at rest
          cases hx : cell.effective with
          | some bit =>
            rw [hx] at rest
            exact freshWire_fault rest he
          | none =>
            rw [hx] at rest
            cases rest
            exact he.elim

end Build

end GateNet
