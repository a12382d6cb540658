import GateNet.Proofs.WellFormed

/-!
The structure of circuits in full. Beside the order of its gates a circuit keeps its counts: the tally
counts the gates, the wires of a circuit that is built up are numbered without gaps, and every wire of a
netlist has a source. Building adds one gate at most, on a wire numbered after all others, so every
change keeps this. Hence gates never feed each other in a circle, and the next wire is always free.
-/

namespace GateNet.Circuit

open Relation Netlist

variable {c d : Circuit}

/-- The structure that every circuit has, with its counts. -/
structure Sound (c : Circuit) : Prop extends WellFormed c where
  tally : ∀ f, c.tally.count f = c.gateList.countP (·.function == f)
  /-- The wires of a circuit that can be built up are those issued so far. -/
  issued : c.origin ≠ .netlist → ∀ w, c.wires.contains w = true ↔ w < c.nextWire
  operand_lt : c.origin ≠ .netlist → ∀ w g, c.gate? w = some g → g.a < w ∧ g.b < w
  /-- Every wire of a netlist is an input, is driven, or holds a value. -/
  supplied : c.origin = .netlist → ∀ w, c.wires.contains w = true →
    c.isInput w = true ∨ c.isGateOutput w = true ∨ c.wires.raw? w ≠ none
  unpaired : c.origin = .netlist → c.complements = ∅ ∧ c.inputComplements = []

/-- The gate of the first wire is read by that of the second. -/
def Feeds (c : Circuit) (v w : Nat) : Prop :=
  c.isGateOutput v = true ∧ ∃ g, c.gate? w = some g ∧ (v = g.a ∨ v = g.b)

/-! ### One gate more -/

/-- A gate on a wire without a driver is evaluated beside those that are there. -/
theorem gateList_file {g : Gate} (filed : ∀ w k, c.gate? w = some k → k.out = w)
    (free : c.isGateOutput g.out = false) : (c.file g).gateList.Perm (g :: c.gateList) := by
  have hnone : c.gate? g.out = none := by
    rwa [isGateOutput_eq, Option.isSome_eq_false_iff, Option.isNone_iff_eq_none] at free
  have hnew : g ∉ c.gateList := fun hg => by
    obtain ⟨w, hw⟩ := Circuit.mem_gateList.mp hg
    rw [filed w g hw, hw] at hnone
    cases hnone
  have filed' : ∀ w k, (c.file g).gate? w = some k → k.out = w := by
    intro w k hk
    rw [gate?_file] at hk
    split at hk
    · rename_i hw
      cases hk
      exact hw
    · exact filed w k hk
  refine (List.perm_ext_iff_of_nodup (gateList_nodup filed')
    (List.nodup_cons.mpr ⟨hnew, gateList_nodup filed⟩)).mpr fun k => ?_
  rw [Circuit.mem_gateList, List.mem_cons, Circuit.mem_gateList]
  constructor
  · rintro ⟨w, hw⟩
    rw [gate?_file] at hw
    split at hw
    · cases hw
      exact .inl rfl
    · exact .inr ⟨w, hw⟩
  · rintro (rfl | ⟨w, hw⟩)
    · exact ⟨k.out, by rw [gate?_file, if_pos rfl]⟩
    · refine ⟨w, ?_⟩
      rw [gate?_file, if_neg, hw]
      rintro rfl
      rw [hw] at hnone
      cases hnone

/-- An act of building adds no gate, or one over registered wires that drives the next wire. -/
theorem WellFormed.growth_gates (h : WellFormed c) (step : Growth c d) :
    (d.gates = c.gates ∧ d.tally = c.tally) ∨
      ∃ g, g.out = c.nextWire ∧ c.isGateOutput c.nextWire = false ∧
        c.wires.contains g.a = true ∧ c.wires.contains g.b = true ∧
        d.gates = (c.file g).gates ∧ d.tally = (c.file g).tally := by
  cases step with
  | wire value can => exact .inl ⟨rfl, rfl⟩
  | input can => exact .inl ⟨rfl, rfl⟩
  | gate function can ha hb free => exact .inr ⟨_, rfl, free, ha, hb, rfl, rfl⟩
  | inputComplement can memo hc hi => exact .inl ⟨rfl, rfl⟩
  | @gateComplement _ g _ can memo hc hi hg free =>
    obtain ⟨-, ha, hb⟩ := h.gate_registered _ _ hg
    exact .inr ⟨g.withOutput c.nextWire, rfl, free, ha, hb, rfl, rfl⟩

theorem gateList_congr (h : d.gates = c.gates) : d.gateList = c.gateList :=
  congrArg Std.ExtTreeMap.values h

theorem gate?_congr (h : d.gates = c.gates) (w : Nat) : d.gate? w = c.gate? w :=
  congrArg (fun gates => gates[w]?) h

namespace Sound

theorem empty : Sound {} where
  toWellFormed := .empty
  tally f := by
    have hnone : gateList {} = [] := List.length_eq_zero_iff.mp (length_gateList {})
    simp [hnone, GateTally.count]
  issued _ w := by simp [WireStore.contains]
  operand_lt _ w g h := by simp [gate?] at h
  supplied h := nomatch h
  unpaired h := nomatch h

/-! ### Every change -/

theorem growth (h : Sound c) (step : Growth c d) : Sound d := by
  obtain ⟨can, ho, hnext, -, cell, hwires⟩ := step.issues
  have hbuilt : d.origin ≠ .netlist := by simp [ho]
  have hlt : ∀ {w}, c.wires.contains w = true → w < c.nextWire :=
    (h.issued can.origin _).mp
  refine {
    toWellFormed := h.toWellFormed.growth step
    tally := fun f => ?_
    issued := fun _ w => ?_
    operand_lt := fun _ w g hg => ?_
    supplied := fun hn => absurd hn hbuilt
    unpaired := fun hn => absurd hn hbuilt }
  · rcases h.growth_gates step with ⟨hgates, htally⟩ | ⟨g, hout, free, -, -, hgates, htally⟩
    · rw [htally, gateList_congr hgates, h.tally]
    · rw [htally, gateList_congr hgates,
        (gateList_file h.gate_filed (hout ▸ free)).countP_eq, List.countP_cons, ← h.tally]
      by_cases hf : g.function = f <;> simp [file, GateTally.count_add, hf]
  · rw [hwires, hnext, WireStore.contains_put, h.issued can.origin]
    omega
  · rcases h.growth_gates step with ⟨hgates, -⟩ | ⟨k, hout, -, ha, hb, hgates, -⟩
    · rw [gate?_congr hgates] at hg
      exact h.operand_lt can.origin w g hg
    · rw [gate?_congr hgates, gate?_file] at hg
      split at hg
      · rename_i hw
        cases hg
        rw [← hw, hout]
        exact ⟨hlt ha, hlt hb⟩
      · exact h.operand_lt can.origin w g hg

theorem change (h : Sound c) {written : Nat → Prop} (step : Change written c d) : Sound d := by
  have hd := h.toWellFormed.change step
  cases step with
  | growth hn g => exact h.growth g
  | output hc ho => exact { h with toWellFormed := hd }
  | @write w value hw hc =>
    refine { h with
      toWellFormed := hd
      issued := fun ho v => ?_
      supplied := fun ho v hv => ?_ }
    · rw [WireStore.contains_write]
      exact h.issued ho v
    · rw [WireStore.contains_write] at hv
      by_cases hwv : w = v
      · rw [← hwv, WireStore.raw?_write_self hc]
        exact .inr (.inr (Option.some_ne_none _))
      · rw [WireStore.raw?_write_of_ne hwv]
        exact h.supplied ho v hv

/-! ### Netlists -/

theorem ofNetlist {ss : List Statement} (h : Describes ss c) (hs : Consistent ss) : Sound c := by
  have wf := WellFormed.ofNetlist h hs
  refine {
    toWellFormed := wf
    tally := fun f => ?_
    issued := fun ho => absurd h.origin ho
    operand_lt := fun ho => absurd h.origin ho
    supplied := fun _ w hw => ?_
    unpaired := fun _ => ⟨h.complements, h.inputComplements⟩ }
  · -- the gates are listed in another order, each of them once
    have hgates : (Netlist.gates ss).Nodup := (driven_nodup hs.admissible).of_map
    rw [h.tally]
    have hperm := (List.perm_ext_iff_of_nodup hgates (gateList_nodup wf.gate_filed)).mpr fun g =>
      (h.mem_gateList hs.admissible).symm
    exact hperm.countP_eq _
  · rw [h.isInput, h.isGateOutput_iff, h.raw?]
    obtain ⟨s, hmem, rfl⟩ := List.mem_map.mp (h.contains_iff.mp hw)
    cases s with
    | input l => exact .inl (List.mem_filterMap.mpr ⟨_, hmem, rfl⟩)
    | gate f out a b =>
      exact .inr (.inl (List.mem_map.mpr ⟨_, List.mem_filterMap.mpr ⟨_, hmem, rfl⟩, rfl⟩))
    | output l seed =>
      have hseed : seed? ss l.wire = seed := seed?_output hs.admissible hmem
      rw [Statement.wire, hseed]
      exact hs.outputs_driven l seed hmem

end Sound

theorem Reachable.sound (h : Reachable c) : Sound c :=
  h.invariant .empty (fun _ _ hs hd => .ofNetlist hd hs) fun _ _ _ step hc => hc.change step

/-! ### What follows -/

theorem faulty_ofBuild {step : Build Answer} {e : Fault}
    (h : Outcome.ofBuild step c = .faulty e) : step c = .error e := by
  rw [Outcome.ofBuild] at h
  split at h
  · cases h
  · rename_i e' he
    cases h
    exact he

theorem ofAttempt_ne_faulty {ε : Type} {toError : ε → IntegerError} {run : Attempt Circuit ε}
    {e : Fault} : Outcome.ofAttempt toError run ≠ .faulty e := by
  intro h
  rw [Outcome.ofAttempt] at h
  split at h
  · cases h
  · cases h

namespace Sound

/-- Gates do not feed each other in a circle. -/
theorem acyclic (h : Sound c) (w : Nat) : ¬ TransGen c.Feeds w w := by
  have hstep : ∀ v w, c.Feeds v w → v < w := by
    rintro v w ⟨hv, g, hg, hr⟩
    exact h.gate_order w g hg v hr hv
  have hpath : ∀ v w, TransGen c.Feeds v w → v < w := by
    intro v w hvw
    induction hvw with
    | single hab => exact hstep _ _ hab
    | tail _ hbc ih => exact Nat.lt_trans ih (hstep _ _ hbc)
  exact fun hcircle => Nat.lt_irrefl w (hpath w w hcircle)

theorem total_eq (h : Sound c) : c.tally.total = c.numGates := by
  have hcount : ∀ f, c.tally.count f = (c.gateList.map Gate.function).count f := fun f => by
    rw [h.tally, List.count_eq_countP, List.countP_map]
    rfl
  rw [GateTally.total_eq_length hcount, List.length_map, length_gateList]

theorem numWires_eq (h : Sound c) (ho : c.origin ≠ .netlist) : c.numWires = c.nextWire :=
  WireStore.size_eq (h.issued ho)

theorem not_nextTaken (h : Sound c) : ¬ c.NextTaken := by
  rintro ⟨ho, hc | hg⟩
  · exact Nat.lt_irrefl _ ((h.issued ho _).mp hc)
  · rw [isGateOutput_eq, Option.isSome_iff_exists] at hg
    obtain ⟨g, hg⟩ := hg
    exact Nat.lt_irrefl _ ((h.issued ho _).mp (h.gate_registered _ g hg).1)

theorem canIssue (h : Sound c) (ho : c.origin ≠ .netlist) : c.CanIssue where
  origin := ho
  unused := by
    rw [← Bool.not_eq_true, h.issued ho]
    exact Nat.lt_irrefl _

theorem grown (h : Sound c) (hd : ReflTransGen Growth c d) : Sound d := by
  induction hd with
  | refl => exact h
  | tail _ step ih => exact ih.growth step

/-- Building is at no fault but its caller's. -/
theorem build_fault (h : Sound c) {α : Type} {step : Build α} (hs : Build.Grows step) {e : Fault}
    (he : step c = .error e) : ¬ e.Internal := by
  intro hi
  obtain ⟨d, grown, taken⟩ := hs.fault he hi
  exact (h.grown grown).not_nextTaken taken

/-- An operation is at no fault but its caller's. -/
theorem operation_fault (h : Sound c) (op : Operation) {e : Fault} (he : op.run c = .faulty e) :
    ¬ e.Internal := by
  cases op with
  | build step => exact h.build_fault step.assembled_run.grows (faulty_ofBuild he)
  | constantWord width value =>
    rw [Operation.run, Word.constant] at he
    cases hb : TwosComplement.encode value width with
    | error _ => simp only [hb, Except.map] at he; cases he
    | ok bits =>
      simp only [hb, Except.map] at he
      exact h.build_fault (Build.assembled_map _ (Word.assembled_ofConstants bits)).grows (faulty_ofBuild he)
  | addOutput w => exact absurd he ofAttempt_ne_faulty
  | markOutput x => exact absurd he ofAttempt_ne_faulty
  | assign w value => exact absurd he ofAttempt_ne_faulty
  | assignWord x value => exact absurd he ofAttempt_ne_faulty
  | loadValues text => exact absurd he ofAttempt_ne_faulty
  | execute => exact absurd he ofAttempt_ne_faulty

end Sound

/-- Every circuit has its structure in order: its gates do not feed each other in a circle, its tally
counts them all, a circuit that can be built up has its wires numbered from zero without gaps and issues
the next number, and no operation on it finds that number in use. -/
theorem reachable_sound_acyclic (hc : Reachable c) :
    Sound c ∧ (∀ w, ¬ TransGen c.Feeds w w) ∧ c.tally.total = c.numGates ∧
      (c.origin ≠ .netlist →
        c.nextWire = c.numWires ∧ (∀ w, c.wires.contains w = true ↔ w < c.numWires) ∧
          ∃ d, Build.issueWire c = .ok (c.numWires, d)) ∧
      ∀ (op : Operation) e, op.run c = .faulty e → ¬ e.Internal := by
  have h := hc.sound
  refine ⟨h, h.acyclic, h.total_eq, fun ho => ?_, fun op e => h.operation_fault op⟩
  rw [h.numWires_eq ho]
  exact ⟨rfl, h.issued ho, _, Build.freshWire_ok_iff.mpr ⟨h.canIssue ho, rfl, rfl⟩⟩

/-- An exclusive-or and its complement, and a wire marked as an output twice, which fails. -/
theorem reachable_sound_acyclic_inverted :
    ∃ c, Reachable c ∧ c.origin = .synthesis ∧ c.numWires = 4 ∧ c.numGates = 2 ∧
      c.tally.total = 2 ∧ ∃ d, Build.issueWire c = .ok (4, d) := by
  obtain ⟨c, hc, ho, hwires, hgates⟩ : ∃ c, Reachable c ∧ c.origin = .synthesis ∧
      c.numWires = 4 ∧ c.numGates = 2 := by
    have hinputs := Reachable.empty.operated (.build (.issueInputs 2)) rfl
    have hgates := (hinputs.operated (.build (.addGate .xor 0 1)) rfl).operated
      (.build (.invert 2)) rfl
    exact ⟨_, hgates.operated (.markOutput ⟨[3, 3]⟩) rfl, rfl, rfl, rfl⟩
  obtain ⟨-, -, htotal, hbuilt, -⟩ := reachable_sound_acyclic hc
  obtain ⟨-, -, hissue⟩ := hbuilt (by simp [ho])
  rw [hgates] at htotal
  rw [hwires] at hissue
  exact ⟨c, hc, ho, hwires, hgates, htotal, hissue⟩

end GateNet.Circuit
