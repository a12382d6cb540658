import GateNet.Proofs.Netlist.RoundTrip
import GateNet.Proofs.Structure

/-!
When executing fails, and where. A pass meets a wire that a gate drives after that gate, so such a wire
has its value by then; what can lack one is a wire that nothing drives and that no input gives a value.
The pass stops at the first gate that reads such a wire, and what it has done up to there is what every
pass does.
-/

namespace GateNet.Circuit

variable {c d : Circuit} {w : Nat} {g : Gate} {e : Cause}

/-- The wire has a value, or it is the complement of an input that has one. -/
def Sourced (c : Circuit) (w : Nat) : Prop :=
  c.wires.raw? w ≠ none ∨ ∃ p ∈ c.inputComplements, p.2 = w ∧ c.wires.raw? p.1 ≠ none

/-- Nothing gives the wire a value: no gate drives it, and it has none of its own or of an input. -/
structure Lacking (c : Circuit) (w : Nat) : Prop where
  not_driven : c.isGateOutput w = false
  not_sourced : ¬ Sourced c w

/-- The gate is the first one that reads a lacking wire, and the wire is the first such that it reads. -/
structure Stuck (c : Circuit) (g : Gate) (w : Nat) : Prop where
  filed : c.gate? g.out = some g
  lacking : Lacking c w
  first : w = g.a ∨ w = g.b ∧ ¬ Lacking c g.a
  least : ∀ v k, c.gate? v = some k → v < g.out → ¬ Lacking c k.a ∧ ¬ Lacking c k.b

/-- The second circuit is what a pass over the gates in front of the one that drives the wire leaves of
the first one: their outputs and the complements of known inputs are right, and nothing else changed. -/
structure StoppedAt (c d : Circuit) (out : Nat) : Prop extends SameStructure c d where
  evaluated : ∀ w g, c.gate? w = some g → w < out → ∃ a b, d.wires.seen? g.a = some a ∧
    d.wires.seen? g.b = some b ∧ d.wires.raw? w = some (g.eval a b)
  refreshed : ∀ p ∈ c.inputComplements, ∀ x, c.wires.seen? p.1 = some x →
    d.wires.raw? p.2 = some !x
  unevaluated : ∀ w, c.isGateOutput w = true → out ≤ w → d.wires.raw? w = c.wires.raw? w
  undriven : ∀ w, c.isGateOutput w = false →
    (∀ p ∈ c.inputComplements, p.2 = w → c.wires.seen? p.1 = none) →
    d.wires.raw? w = c.wires.raw? w

theorem SameStructure.isRead_iff (h : SameStructure c d) : IsRead d w ↔ IsRead c w := by
  rw [h.rest]
  rfl

/-! ### Wires that no gate drives -/

/-- After the complements have followed the inputs, exactly the wires with a source have a value. -/
theorem WellFormed.refreshed_iff (h : WellFormed c) :
    c.refreshed.raw? w ≠ none ↔ Sourced c w := by
  rcases follows_or_idle c w with ⟨p, hp, rfl, x, hx⟩ | hidle
  · have hknown : c.wires.raw? p.1 ≠ none := WireStore.raw?_of_seen? hx
    rw [h.raw?_refreshed_complement hp hx]
    exact ⟨fun _ => .inr ⟨p, hp, rfl, hknown⟩, fun _ => Option.some_ne_none _⟩
  · rw [h.raw?_refreshed hidle]
    constructor
    · exact Or.inl
    · rintro (hknown | ⟨p, hp, rfl, hknown⟩)
      · exact hknown
      · exact absurd (WireStore.seen?_eq_none_iff.mp (hidle p hp rfl)) hknown

/-- A pass over gates of the circuit leaves the wires alone that no gate drives. -/
theorem WellFormed.raw?_undriven (h : WellFormed c) {gs : List Gate} (hgs : ∀ g ∈ gs, g ∈ c.gateList)
    (hw : c.isGateOutput w = false) :
    (runSteps evaluateGate c.refreshed gs).state.raw? w = c.refreshed.raw? w :=
  raw?_pass fun g hg => h.notDriven_iff.mpr hw g (hgs g hg)

/-- A pass never gives a lacking wire a value. -/
theorem Lacking.unseen (hw : Lacking c w) (h : WellFormed c) {gs : List Gate}
    (hgs : ∀ g ∈ gs, g ∈ c.gateList) :
    (runSteps evaluateGate c.refreshed gs).state.seen? w = none := by
  rw [WireStore.seen?_eq_none_iff, h.raw?_undriven hgs hw.not_driven]
  by_contra hknown
  exact hw.not_sourced (h.refreshed_iff.mp hknown)

/-! ### The gates in front of one -/

section Prefix

variable {before after : List Gate} {t : WireStore}

theorem Ascending.append_left (asc : Ascending (before ++ after)) : Ascending before where
  sorted := (List.pairwise_append.mp asc.sorted).1
  reads g hg k hk := asc.reads g (List.mem_append_left _ hg) k (List.mem_append_left _ hk)

/-- The gates in front of one are those that drive smaller wires. -/
theorem Ascending.mem_before (asc : Ascending (before ++ g :: after)) {k : Gate}
    (hk : k ∈ before ++ g :: after) : k ∈ before ↔ k.out < g.out := by
  obtain ⟨-, hafter, hbefore⟩ := List.pairwise_append.mp asc.sorted
  constructor
  · intro hin
    exact hbefore k hin g (List.mem_cons_self ..)
  · intro hlt
    rcases List.mem_append.mp hk with hin | hin
    · exact hin
    · rcases List.mem_cons.mp hin with rfl | hin
      · exact absurd hlt (Nat.lt_irrefl _)
      · have := (List.pairwise_cons.mp hafter).1 k hin
        omega

/-- The gates in front of one are evaluated by a pass that gets to it. -/
theorem WellFormed.evaluated_before (h : WellFormed c) (hgs : c.gateList = before ++ g :: after)
    (hrun : runSteps evaluateGate c.refreshed before = ⟨t, none⟩) {v : Nat} {k : Gate}
    (hk : c.gate? v = some k) (hv : v < g.out) :
    ∃ a b, t.seen? k.a = some a ∧ t.seen? k.b = some b ∧ t.raw? v = some (k.eval a b) := by
  have asc := hgs ▸ h.ascending
  obtain rfl := h.gate_filed v k hk
  have hmem : k ∈ before ++ g :: after := hgs ▸ h.mem_gateList.mpr hk
  exact pass_satisfies asc.append_left hrun k ((asc.mem_before hmem).mpr hv)

/-- What a gate reads has a value when a pass gets to the gate, or else it is lacking. -/
theorem WellFormed.lacking_of_unseen (h : WellFormed c) (hgs : c.gateList = before ++ g :: after)
    (hrun : runSteps evaluateGate c.refreshed before = ⟨t, none⟩) (hw : w = g.a ∨ w = g.b)
    (hnone : t.seen? w = none) : Lacking c w := by
  have hg : c.gate? g.out = some g := h.mem_gateList.mp (hgs ▸ by simp)
  have hbefore : ∀ k ∈ before, k ∈ c.gateList := fun k hk => hgs ▸ List.mem_append_left _ hk
  rw [WireStore.seen?_eq_none_iff] at hnone
  have hundriven : c.isGateOutput w = false := by
    by_contra hd
    rw [Bool.not_eq_false] at hd
    -- the driver comes before the gate, so it has been evaluated
    have hlt := h.gate_order g.out g hg w hw hd
    rw [isGateOutput_eq, Option.isSome_iff_exists] at hd
    obtain ⟨k, hk⟩ := hd
    obtain ⟨a, b, -, -, hvalue⟩ := h.evaluated_before hgs hrun hk hlt
    rw [hnone] at hvalue
    cases hvalue
  refine ⟨hundriven, fun hs => h.refreshed_iff.mpr hs ?_⟩
  rw [← h.raw?_undriven hbefore hundriven, hrun]
  exact hnone

end Prefix

/-! ### The end of a pass -/

namespace WellFormed

/-- A pass that gets to its end has read no lacking wire. -/
theorem not_lacking (h : WellFormed c) (hok : c.execute.failure = none) (hw : IsRead c w) :
    ¬ Lacking c w := by
  intro hl
  have hnone : c.settle.state.seen? w = none := h.settle_eq ▸ hl.unseen h fun _ => id
  obtain ⟨v, g, hg, hw⟩ := hw
  obtain ⟨a, b, ha, hb, -⟩ := h.settle_gate hok hg
  rcases hw with rfl | rfl
  · rw [ha] at hnone
    cases hnone
  · rw [hb] at hnone
    cases hnone

/-- A pass that fails does so at the first gate that reads a lacking wire. -/
theorem execute_failed (h : WellFormed c) (hf : c.execute.failure = some e) :
    ∃ g w, Stuck c g w ∧ e = .unassignedInput g.out w ∧ StoppedAt c c.execute.state g.out := by
  have hrun : runSteps evaluateGate c.refreshed c.gateList = ⟨c.settle.state, some e⟩ := by
    rw [← h.settle_eq, ← hf]
    rfl
  obtain ⟨before, g, after, hgs, hbefore, herror⟩ := runSteps_failed hrun
  have hg : c.gate? g.out = some g := h.mem_gateList.mp (hgs ▸ by simp)
  have hin : ∀ k ∈ before, k ∈ c.gateList := fun k hk => hgs ▸ List.mem_append_left _ hk
  have hstate : (runSteps evaluateGate c.refreshed before).state = c.settle.state := by rw [hbefore]
  have hreg : ∀ {v}, c.wires.contains v = true → c.settle.state.contains v = true := fun hv => by
    rwa [WireStore.contains_eq, h.polarity?_settle, ← WireStore.contains_eq]
  obtain ⟨hout, ha, hb⟩ := h.gate_registered _ g hg
  obtain ⟨w, rfl, hnone, hfirst⟩ := evaluateGate_error (hreg ha) (hreg hb) (hreg hout) herror
  refine ⟨g, w, ?_, rfl, ?_⟩
  · refine {
      filed := hg
      lacking := h.lacking_of_unseen hgs hbefore (hfirst.imp_right And.left) hnone
      first := hfirst.imp_right fun hw => ⟨hw.1, fun hl => hw.2 (hstate ▸ hl.unseen h hin)⟩
      least := fun v k hk hv => ?_ }
    obtain ⟨a, b, hsa, hsb, -⟩ := h.evaluated_before hgs hbefore hk hv
    constructor
    · intro hl
      rw [← hstate, hl.unseen h hin] at hsa
      cases hsa
    · intro hl
      rw [← hstate, hl.unseen h hin] at hsb
      cases hsb
  · refine {
      toSameStructure := h.sameGiven_settle.toSameStructure
      evaluated := fun v k hk hv => h.evaluated_before hgs hbefore hk hv
      refreshed := fun p hp x hx => ?_
      unevaluated := fun v hd hv => ?_
      undriven := fun v hd hidle => ?_ }
    · show c.settle.state.raw? p.2 = _
      rw [← hstate, h.raw?_undriven hin (h.complement_undriven p hp).2]
      exact h.raw?_refreshed_complement hp hx
    · show c.settle.state.raw? v = _
      rw [← hstate, raw?_pass, h.raw?_refreshed]
      · rintro p hp rfl
        rw [(h.complement_undriven p hp).2] at hd
        cases hd
      · rintro k hk rfl
        have hlt := ((hgs ▸ h.ascending).mem_before (List.mem_append_left _ hk)).mp hk
        exact absurd hv (Nat.not_le.mpr hlt)
    · show c.settle.state.raw? v = _
      rw [← hstate, h.raw?_undriven hin hd, h.raw?_refreshed hidle]

/-- Executing succeeds exactly if no gate reads a lacking wire. -/
theorem execute_ok_iff (h : WellFormed c) :
    c.execute.failure = none ↔ ∀ w, IsRead c w → ¬ Lacking c w := by
  constructor
  · intro hok w
    exact h.not_lacking hok
  · intro hread
    refine Option.eq_none_iff_forall_ne_some.mpr fun e hf => ?_
    obtain ⟨g, w, stuck, -, -⟩ := h.execute_failed hf
    exact hread w ⟨g.out, g, stuck.filed, stuck.first.imp_right And.left⟩ stuck.lacking

end WellFormed

/-! ### Netlists -/

/-- In a netlist whose inputs have values, nothing is lacking. -/
theorem Sound.not_lacking (h : Sound c) (ho : c.origin = .netlist)
    (hi : ∀ w, c.isInput w = true → c.wires.raw? w ≠ none) (hw : c.wires.contains w = true) :
    ¬ Lacking c w := by
  intro hl
  rcases h.supplied ho w hw with hinput | hdriven | hknown
  · exact hl.not_sourced (.inl (hi w hinput))
  · rw [hl.not_driven] at hdriven
    cases hdriven
  · exact hl.not_sourced (.inl hknown)

/-- An execution that succeeds leaves a value on every wire that is not lacking. -/
theorem WellFormed.raw?_executed (h : WellFormed c) (hok : c.execute.failure = none)
    (hw : ¬ Lacking c w) : c.execute.state.wires.raw? w ≠ none := by
  show c.settle.state.raw? w ≠ none
  cases hd : c.isGateOutput w with
  | true => exact (h.settle_solution hok).2 w hd
  | false =>
    rw [h.settle_eq, h.raw?_undriven (fun _ => id) hd, h.refreshed_iff]
    by_contra hs
    exact hw ⟨hd, hs⟩

/-- Outputs that have values are delivered. -/
theorem outputBits_ok (h : ∀ l ∈ c.outputs, c.wires.raw? l.wire ≠ none) :
    ∃ bits, c.outputBits = .ok bits := by
  have hvalue : ∀ l ∈ c.outputs, ∃ x, c.outputValue l = .ok x := fun l hl => by
    obtain ⟨raw, hraw⟩ := Option.ne_none_iff_exists'.mp (h l hl)
    exact ⟨_, outputValue_ok_iff.mpr ⟨raw, hraw, rfl⟩⟩
  obtain ⟨bits, hbits⟩ := exists_list_of_forall hvalue
  exact ⟨bitText bits, map_ok_iff.mpr ⟨bits, mapM_ok_of_forall₂ hbits, rfl⟩⟩

/-- Executing succeeds exactly if no gate reads a wire that lacks a value. Otherwise it reports the
first gate that does, with the first such wire that the gate reads, and leaves the circuit as the gates
before that one leave it. So a netlist whose inputs have values is executed to the end, and delivers its
outputs. -/
theorem execute_fails_at_first (hc : Reachable c) :
    (c.execute.failure = none ↔ ∀ w, IsRead c w → ¬ Lacking c w) ∧
      (∀ e, c.execute.failure = some e →
        ∃ g w, Stuck c g w ∧ e = .unassignedInput g.out w ∧ StoppedAt c c.execute.state g.out) ∧
      (c.origin = .netlist → (∀ w, c.isInput w = true → c.wires.raw? w ≠ none) →
        c.execute.failure = none ∧ ∃ bits, c.execute.state.outputBits = .ok bits) := by
  have h := hc.sound
  refine ⟨h.execute_ok_iff, fun e => h.execute_failed, fun ho hi => ?_⟩
  have hnone : ∀ {w}, c.wires.contains w = true → ¬ Lacking c w := h.not_lacking ho hi
  have hok : c.execute.failure = none :=
    h.execute_ok_iff.mpr fun w hw => hnone (h.read_registered hw)
  exact ⟨hok, outputBits_ok fun l hl => h.raw?_executed hok (hnone (h.output_registered l hl))⟩

/-- A conjunction in a netlist is stuck while one of its inputs has no value, and delivers its output
once both have. -/
theorem execute_fails_at_first_conjunction :
    ∃ c, Netlist.parse "I:0\nI:2\n4 8 0 2\nO:4:0\n" = .ok c ∧
      (∃ g, g.out = 2 ∧ Stuck (Values.load c "0 1\n").state g 1 ∧
        (Values.load c "0 1\n").state.execute.failure = some (.unassignedInput 2 1)) ∧
      (Values.load c "0 1\n2 1\n").state.execute.failure = none ∧
      ∃ bits, (Values.load c "0 1\n2 1\n").state.execute.state.outputBits = .ok bits := by
  obtain ⟨c, hc, hf, ho, hi⟩ : ∃ c, Netlist.parse "I:0\nI:2\n4 8 0 2\nO:4:0\n" = .ok c ∧
      (Values.load c "0 1\n").state.execute.failure = some (.unassignedInput 2 1) ∧
      (Values.load c "0 1\n2 1\n").state.origin = .netlist ∧
      ((Values.load c "0 1\n2 1\n").state.inputs.toList.all fun w =>
        ((Values.load c "0 1\n2 1\n").state.wires.raw? w).isSome) = true := ⟨_, rfl, rfl, rfl, rfl⟩
  obtain ⟨-, hstuck, -⟩ := execute_fails_at_first (.load (.parsed hc) "0 1\n")
  obtain ⟨-, -, hdelivers⟩ := execute_fails_at_first (.load (.parsed hc) "0 1\n2 1\n")
  obtain ⟨g, w, stuck, he, -⟩ := hstuck _ hf
  obtain ⟨hout, rfl⟩ : 2 = g.out ∧ 1 = w := by simpa using he
  refine ⟨c, hc, ⟨g, hout.symm, stuck, hf⟩, hdelivers ho fun w hw => ?_⟩
  have hmem := Std.ExtTreeSet.mem_toList.mpr (Std.ExtTreeSet.mem_iff_contains.mpr hw)
  exact Option.isSome_iff_ne_none.mp (List.all_eq_true.mp hi w hmem)

end GateNet.Circuit
