import GateNet.Netlist.Writer
import GateNet.Proofs.Sequence
import GateNet.Proofs.Store
import GateNet.Word.Basic

/-!
Declaring outputs one by one. The outputs are kept as a list and their wires as a set besides, and a wire
is put into the set before it shows whether it was there. If it was, the set stays as it is, so an output
that is refused leaves no trace in either; and a word is declared by steps that are taken or not.
-/

namespace GateNet

open Netlist

namespace Circuit

variable {c d : Circuit} {w : Nat} {cell : Cell} {cause : Cause}

theorem cell_ok_iff : c.cell w = .ok cell ↔ c.wires.cells[w]? = some cell :=
  mapError_ok_iff.trans WireStore.cell_eq_ok_iff

theorem cell_error_iff :
    c.cell w = .error cause ↔ c.wires.contains w = false ∧ cause = .wire (.notFound w) := by
  rw [Circuit.cell, mapError_error_iff, WireStore.cell, WireStore.contains_eq_isSome]
  cases c.wires.cells[w]? <;> simp [eq_comm]

/-! ### One output -/

/-- The wire of an output is noted once more without an effect. -/
theorem insert_outputWires (h : c.isOutput w = true) : c.outputWires.insert w = c.outputWires := by
  refine Std.ExtTreeSet.ext_contains fun v => ?_
  rw [Std.ExtTreeSet.contains_insert]
  by_cases hv : w = v
  · rw [← hv, show c.outputWires.contains w = true from h, Bool.or_true]
  · simp [hv]

theorem makeOutput_unknown (h : c.wires.contains w = false) :
    c.makeOutput w = ⟨c, some (.wire (.notFound w))⟩ := by
  rw [makeOutput, cell_error_iff.mpr ⟨h, rfl⟩]

theorem makeOutput_again (hc : c.wires.cells[w]? = some cell) (ho : c.isOutput w = true) :
    c.makeOutput w = ⟨c, some (.duplicateOutput w)⟩ := by
  rw [makeOutput, cell_ok_iff.mpr hc]
  simp only [ho, if_true, insert_outputWires ho]

theorem makeOutput_new (hc : c.wires.cells[w]? = some cell) (ho : c.isOutput w = false) :
    c.makeOutput w = ⟨c.appendOutput ⟨w, cell.polarity.inverted⟩, none⟩ := by
  rw [makeOutput, cell_ok_iff.mpr hc]
  simp only [ho, Bool.false_eq_true, if_false, appendOutput]

/-- A wire is unknown, or it is an output already, or it can be declared. -/
theorem makeOutput_cases (c : Circuit) (w : Nat) :
    (c.wires.contains w = false ∧ c.makeOutput w = ⟨c, some (.wire (.notFound w))⟩) ∨
      (c.wires.contains w = true ∧ c.isOutput w = true ∧
        c.makeOutput w = ⟨c, some (.duplicateOutput w)⟩) ∨
      ∃ cell, c.wires.cells[w]? = some cell ∧ c.isOutput w = false ∧
        c.makeOutput w = ⟨c.appendOutput ⟨w, cell.polarity.inverted⟩, none⟩ := by
  cases hw : c.wires.contains w with
  | false => exact .inl ⟨rfl, makeOutput_unknown hw⟩
  | true =>
    obtain ⟨cell, hc⟩ := WireStore.contains_iff.mp hw
    cases ho : c.isOutput w with
    | true => exact .inr (.inl ⟨rfl, rfl, makeOutput_again hc ho⟩)
    | false => exact .inr (.inr ⟨cell, hc, rfl, makeOutput_new hc ho⟩)

/-- An output that is refused leaves the circuit as it was. -/
theorem makeOutput_eq (c : Circuit) (w : Nat) : c.makeOutput w = .ofStep c (c.addOutput w) := by
  rw [addOutput]
  rcases makeOutput_cases c w with ⟨-, h⟩ | ⟨-, -, h⟩ | ⟨cell, -, -, h⟩ <;> rw [h] <;> rfl

theorem addOutput_ok_iff :
    c.addOutput w = .ok d ↔
      ∃ cell, c.wires.cells[w]? = some cell ∧ c.isOutput w = false ∧
        d = c.appendOutput ⟨w, cell.polarity.inverted⟩ := by
  rw [addOutput]
  constructor
  · intro h
    rcases makeOutput_cases c w with ⟨-, hw⟩ | ⟨-, -, hw⟩ | ⟨cell, hc, ho, hw⟩ <;> rw [hw] at h <;> cases h
    exact ⟨cell, hc, ho, rfl⟩
  · rintro ⟨cell, hc, ho, rfl⟩
    rw [makeOutput_new hc ho]
    rfl

theorem addOutput_error_iff :
    c.addOutput w = .error cause ↔
      (c.wires.contains w = false ∧ cause = .wire (.notFound w)) ∨
        c.wires.contains w = true ∧ c.isOutput w = true ∧ cause = .duplicateOutput w := by
  rw [addOutput]
  constructor
  · intro h
    rcases makeOutput_cases c w with ⟨hreg, hw⟩ | ⟨hreg, ho, hw⟩ | ⟨cell, -, -, hw⟩ <;> rw [hw] at h <;>
      cases h
    · exact .inl ⟨hreg, rfl⟩
    · exact .inr ⟨hreg, ho, rfl⟩
  · rintro (⟨hreg, rfl⟩ | ⟨hreg, ho, rfl⟩)
    · rw [makeOutput_unknown hreg]
      rfl
    · obtain ⟨cell, hc⟩ := WireStore.contains_iff.mp hreg
      rw [makeOutput_again hc ho]
      rfl

/-! ### Several outputs -/

/-- The circuit with some more outputs. -/
def withOutputs (c : Circuit) (ls : List Literal) : Circuit :=
  { c with
    outputs := c.outputs ++ ls
    outputWires := ls.foldl (fun noted l => noted.insert l.wire) c.outputWires }

theorem withOutputs_cons (c : Circuit) (l : Literal) (ls : List Literal) :
    c.withOutputs (l :: ls) = (c.appendOutput l).withOutputs ls := by
  simp [withOutputs, appendOutput]

theorem isOutput_withOutputs {ls : List Literal} :
    (c.withOutputs ls).isOutput w = true ↔ c.isOutput w = true ∨ w ∈ ls.map Literal.wire := by
  induction ls generalizing c with
  | nil => simp [withOutputs, isOutput]
  | cons l rest ih =>
    rw [withOutputs_cons, ih, isOutput_appendOutput, List.map_cons, List.mem_cons, or_assoc]

/-- Distinct wires are declared one after the other. -/
theorem run_addOutput {ws : List Nat} (hn : ws.Nodup)
    (h : ∀ w ∈ ws, c.wires.contains w = true ∧ c.isOutput w = false) :
    runSteps addOutput c ws = ⟨c.withOutputs (ws.map fun w => ⟨w, polarity c w⟩), none⟩ := by
  induction ws generalizing c with
  | nil => simp [withOutputs]
  | cons w rest ih =>
    obtain ⟨hreg, hout⟩ := h w (List.mem_cons_self ..)
    obtain ⟨cell, hc⟩ := WireStore.contains_iff.mp hreg
    have hpolarity : polarity c w = cell.polarity.inverted := by rw [polarity, hc]
    rw [runSteps_cons_ok (addOutput_ok_iff.mpr ⟨cell, hc, hout, rfl⟩), ih (List.nodup_cons.mp hn).2,
      List.map_cons, withOutputs_cons, hpolarity]
    · rfl
    · intro v hv
      obtain ⟨hreg, hout⟩ := h v (List.mem_cons_of_mem w hv)
      refine ⟨hreg, ?_⟩
      have hne : v ≠ w := fun he => (List.nodup_cons.mp hn).1 (he ▸ hv)
      rw [← Bool.not_eq_true, isOutput_appendOutput, hout]
      simpa using hne

/-- Wires that were declared one after the other are distinct, and were registered and no outputs. -/
theorem declared_of_run {ws : List Nat} (h : runSteps addOutput c ws = ⟨d, none⟩) :
    ws.Nodup ∧ ∀ w ∈ ws, c.wires.contains w = true ∧ c.isOutput w = false := by
  induction ws generalizing c with
  | nil => exact ⟨List.nodup_nil, nofun⟩
  | cons w rest ih =>
    obtain ⟨c', hw, h⟩ := runSteps_cons_done_iff.mp h
    obtain ⟨cell, hc, hout, rfl⟩ := addOutput_ok_iff.mp hw
    obtain ⟨hn, hrest⟩ := ih h
    -- the wire is an output for those that come after it
    have hlater : ∀ v ∈ rest, c.isOutput v = false ∧ v ≠ w := fun v hv => by
      have hv := (hrest v hv).2
      rw [← Bool.not_eq_true, isOutput_appendOutput, not_or] at hv
      exact ⟨Bool.not_eq_true _ ▸ hv.1, hv.2⟩
    refine ⟨List.nodup_cons.mpr ⟨fun hmem => (hlater w hmem).2 rfl, hn⟩, fun v hv => ?_⟩
    rcases List.mem_cons.mp hv with rfl | hv
    · exact ⟨WireStore.contains_iff.mpr ⟨cell, hc⟩, hout⟩
    · exact ⟨(hrest v hv).1, (hlater v hv).1⟩

end Circuit

/-- A word is declared by steps of which each is taken or not. -/
theorem Word.markOutput_eq (x : Word) (c : Circuit) :
    x.markOutput c = runSteps Circuit.addOutput c x.bits :=
  runAttempts_eq_runSteps Circuit.makeOutput_eq c x.bits

end GateNet
