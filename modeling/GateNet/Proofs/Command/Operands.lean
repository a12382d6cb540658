import GateNet.Proofs.Oblivious
import GateNet.Proofs.Gadget.Divider
import GateNet.Proofs.Gadget.Fresh
import GateNet.Proofs.Readout

/-!
Operands. Before any gate is built, a circuit is issued the inputs of its operands, and they are given
the bits of the values; so it has inputs that hold values and nothing else. A valuation that takes these
inputs as they are finds on the wires of an operand the number that is stored for its value.
-/

namespace GateNet

open Circuit hiding value
open TwosComplement

namespace Circuit

variable {c d e : Circuit} {k : Nat}

/-! ### Issuing inputs -/

/-- The second circuit has some more inputs, numbered after all wires of the first one, and is otherwise
as it was. -/
structure Widened (c d : Circuit) (k : Nat) : Prop where
  steady : Steady d
  gates : d.gates = c.gates
  outputs : d.outputs = c.outputs
  nextWire : d.nextWire = c.nextWire + k
  isInput : ∀ w, c.nextWire ≤ w → w < d.nextWire → d.isInput w = true
  kept : ∀ w, w < c.nextWire → d.isInput w = c.isInput w ∧ d.wires.raw? w = c.wires.raw? w

theorem Widened.refl (h : Steady c) : Widened c c 0 where
  steady := h
  gates := rfl
  outputs := rfl
  nextWire := rfl
  isInput _ hlow hhigh := absurd hlow (Nat.not_le.mpr hhigh)
  kept _ _ := ⟨rfl, rfl⟩

/-- One input more, and then some. -/
theorem Widened.cons (h : Steady c) (can : c.CanIssue) (rest : Widened c.withInput d k) :
    Widened c d (k + 1) where
  steady := rest.steady
  gates := rest.gates
  outputs := rest.outputs
  nextWire := by
    rw [rest.nextWire]
    show c.nextWire + 1 + k = _
    omega
  isInput w hlow hhigh := by
    have hnext : c.withInput.nextWire = c.nextWire + 1 := rfl
    by_cases he : w = c.nextWire
    · rw [(rest.kept w (by omega)).1]
      exact (isInput_insert ..).mpr (.inl he)
    · exact rest.isInput w (by omega) hhigh
  kept w hw := by
    have hnext : c.withInput.nextWire = c.nextWire + 1 := rfl
    have hreg : c.wires.contains w = true := (h.issued can.origin w).mpr hw
    obtain ⟨hinput, hraw⟩ := rest.kept w (by omega)
    have step := Growth.input can
    exact ⟨hinput.trans (step.keeps.isInput w hreg), hraw.trans (step.raw? hreg)⟩

theorem issueInputs_loop (h : Steady c) (k : Nat) :
    ∃ d, (List.replicate k ()).mapM (fun _ => Build.issueInput) c =
      .ok (List.range' c.nextWire k, d) ∧ Widened c d k := by
  induction k generalizing c with
  | zero => exact ⟨c, rfl, .refl h⟩
  | succ k ih =>
    have can := h.canIssue h.origin_ne
    obtain ⟨d, hrest, widened⟩ := ih (h.growth (.input can))
    refine ⟨d, ?_, widened.cons h can⟩
    rw [List.replicate_succ, List.mapM_cons, List.range'_succ]
    refine Build.bind_ok_iff.mpr ⟨_, _, Build.issueInput_ok_iff.mpr ⟨can, rfl, rfl⟩, ?_⟩
    exact Build.bind_ok_iff.mpr ⟨_, _, hrest, rfl⟩

/-- A word of inputs has the next wires of the circuit. -/
theorem issueInputs_ok (h : Steady c) (k : Nat) :
    ∃ d, Word.issueInputs k c = .ok (⟨List.range' c.nextWire k⟩, d) ∧ Widened c d k := by
  obtain ⟨d, hd, widened⟩ := issueInputs_loop h k
  exact ⟨d, Build.bind_ok_iff.mpr ⟨_, _, hd, rfl⟩, widened⟩

/-! ### Giving values -/

theorem Supply.assignWord {x : Word} {v : Int} (hx : x.assign c v = ⟨d, none⟩)
    (hi : ∀ w ∈ x.bits, c.isInput w = true) : Supply c d := by
  refine ⟨.assignWord x v, id, ?_, fun w hw _ => hi w hw⟩
  rw [Operation.run, circuit?_ofAttempt, hx]

/-! ### Circuits of operands -/

/-- The circuit has inputs that hold values, and nothing else. -/
structure Ready (c : Circuit) : Prop extends Steady c where
  undriven : ∀ w, c.gate? w = none
  outputs : c.outputs = []
  given : ∀ w, c.wires.contains w = true → c.isInput w = true ∧ c.wires.raw? w ≠ none

theorem Ready.empty : Ready {} where
  toSteady := .empty
  undriven w := by simp [gate?]
  outputs := rfl
  given w h := by simp [WireStore.contains] at h

/-- The wires of before are in front of the new inputs, so they are as they were when values are given to
the new inputs alone. -/
theorem Widened.old (widened : Widened c d k) (same : SameStructure d e)
    (hkept : ∀ w, w < c.nextWire → e.wires.raw? w = d.wires.raw? w) {w : Nat} (hw : w < c.nextWire) :
    e.isInput w = c.isInput w ∧ e.wires.raw? w = c.wires.raw? w := by
  obtain ⟨hi, hraw⟩ := widened.kept w hw
  exact ⟨(same.isInput w).trans hi, (hkept w hw).trans hraw⟩

/-- A circuit of operands with some more inputs that are given values is one. -/
theorem Ready.widened (h : Ready c) (widened : Widened c d k) (steady : Steady e)
    (same : SameStructure d e) (hkept : ∀ w, w < c.nextWire → e.wires.raw? w = d.wires.raw? w)
    (hgiven : ∀ w, c.nextWire ≤ w → w < d.nextWire → e.isInput w = true ∧ e.wires.raw? w ≠ none) :
    Ready e where
  toSteady := steady
  undriven w := by
    rw [same.rest]
    exact (gate?_congr widened.gates w).trans (h.undriven w)
  outputs := by
    rw [same.rest]
    exact widened.outputs.trans h.outputs
  given w hreg := by
    rw [same.contains, widened.steady.issued widened.steady.origin_ne] at hreg
    by_cases hlt : w < c.nextWire
    · obtain ⟨hi, hraw⟩ := widened.old same hkept hlt
      rw [hi, hraw]
      exact h.given w ((h.issued h.origin_ne w).mpr hlt)
    · exact hgiven w (Nat.not_lt.mp hlt) hreg

/-- An operand of which the value fits gets its inputs, and they are given the value. -/
theorem Ready.operand (h : Ready c) {width : Nat} {v : Int} (hw : 1 ≤ width) (hv : Fits v width) :
    ∃ x d e, Word.issueInputs width c = .ok (x, d) ∧ x.assign d v = ⟨e, none⟩ ∧ Supply d e ∧
      Ready e ∧ x.width = width ∧ Given e x (residue v width) ∧
      ∀ y n, Given c y n → Given e y n := by
  obtain ⟨d, hd, widened⟩ := issueInputs_ok h.toSteady width
  generalize hx : (⟨List.range' c.nextWire width⟩ : Word) = x at hd
  have hwidth : x.width = width := hx ▸ List.length_range'
  have hbits : ∀ w, w ∈ x.bits ↔ c.nextWire ≤ w ∧ w < d.nextWire := fun w => by
    rw [← hx, List.mem_range'_1, widened.nextWire]
  have hinput : ∀ w ∈ x.bits, d.isInput w = true := fun w hmem =>
    widened.isInput w ((hbits w).mp hmem).1 ((hbits w).mp hmem).2
  obtain ⟨e, hassign, same, hgiven, hrest⟩ := widened.steady.toWellFormed.assign_ok (hwidth ▸ hw)
    (hwidth ▸ hv) hinput (hx ▸ List.nodup_range')
  have hkept : ∀ w, w < c.nextWire → e.wires.raw? w = d.wires.raw? w := fun w hlt =>
    hrest w fun hmem => Nat.not_lt.mpr ((hbits w).mp hmem).1 hlt
  have hsupply := Supply.assignWord hassign hinput
  have hready := h.widened widened (widened.steady.proceeds hsupply.proceeds) same hkept
    fun w hlow hhigh => hgiven.known ((hbits w).mpr ⟨hlow, hhigh⟩)
  refine ⟨x, d, e, hd, hassign, hsupply, hready, hwidth, hwidth ▸ hgiven, fun y n hy => ?_⟩
  obtain ⟨bits, hy, hn⟩ := hy
  refine ⟨bits, hy.imp fun w bit hw => ?_, hn⟩
  have hlt := (h.issued h.origin_ne w).mp (h.input_registered w hw.1)
  obtain ⟨hi, hraw⟩ := widened.old same hkept hlt
  exact ⟨hi.trans hw.1, hraw.trans hw.2⟩

/-! ### Valuations of inputs -/

/-- The valuation takes the inputs as they are. -/
def Takes (v : Nat → Option Bool) (c : Circuit) : Prop :=
  ∀ w bit, c.isInput w = true → c.wires.raw? w = some bit → v w = some bit

/-- Under such a valuation an operand holds the number that its inputs hold. -/
theorem Given.holds {v : Nat → Option Bool} {x : Word} {n : Nat} (h : Given c x n) (hv : Takes v c) :
    Word.Holds c v x n := by
  obtain ⟨bits, hx, hn⟩ := h
  refine ⟨bits, hx.imp fun w bit hw => ?_, hn⟩
  have hbit : v w = some bit := hv w bit hw.1 hw.2
  exact ⟨.input hw.1 (hbit ▸ Option.some_ne_none bit), fun _ => hbit⟩

end Circuit

end GateNet
