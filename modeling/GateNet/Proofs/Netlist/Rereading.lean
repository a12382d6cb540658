import Mathlib.Data.List.Sort
import GateNet.Proofs.Netlist.Writing
import GateNet.Proofs.Structure

/-!
Reading a written netlist back. What is written can be read if no gate has the code zero and no orphan, a
wire that nothing supplies, is read by a gate or named as an output. The circuit that is read back has
the gates and the outputs of before; its inputs are the wires that were written as inputs, in the
polarities of before. So it is written as the same statements, and under the same heading unless orphans
were left out.
-/

namespace GateNet

open Circuit Netlist Text

variable {c r : Circuit} {w : Nat}

/-! ### Gates with the code zero -/

/-- The line of a gate is read as a statement only if the gate's code is not zero. -/
theorem Statement.code_of_ofLine {f : GateFunction} {out : Nat} {a b : Literal}
    {found : Option Statement}
    (h : Statement.ofLine (Statement.gate f out a b).text.toList = .ok found) : f.code.val ≠ 0 := by
  intro hzero
  have hclean := (Statement.gate f out a b).tokens_clean
  have hfunction : Token.function (digits f.code.val) = .error (.functionOutOfRange 0) := by
    rw [hzero]
    rfl
  rw [ofLine, text_toList, if_neg (not_comment hclean),
    words_spaced fun w hw => (hclean w hw).isWord] at h
  simp only [tokens, ofGate, hfunction, bind, Except.bind] at h
  cases h

theorem Netlist.code_of_statementsOf {ss : List Statement} (h : statementsOf (render c) = .ok ss) :
    ∀ g ∈ c.gateList, g.function.code.val ≠ 0 := by
  intro g hg
  obtain ⟨found, hfound, -⟩ := statementsOf_ok_iff.mp h
  have hline : (gateStatement c g).text.toList ∈ lines (render c).toList := by
    rw [lines_render]
    exact List.mem_cons_of_mem _
      (List.mem_map.mpr ⟨_, mem_statements.mpr (.inr (.inr ⟨g, hg, rfl⟩)), rfl⟩)
  obtain ⟨s, hs⟩ := mapM_ok_mem hfound _ hline
  exact Statement.code_of_ofLine hs

/-! ### Orphans -/

namespace Circuit

/-- A wire that nothing supplies: it is no input and not driven, and has neither a value nor a
complement. -/
structure Orphan (c : Circuit) (w : Nat) : Prop where
  registered : c.wires.contains w = true
  not_input : c.isInput w = false
  not_driven : c.isGateOutput w = false
  unknown : c.wires.raw? w = none
  unpaired : c.complement? w = none

/-- All wires are written as inputs but orphans and those that gates drive. -/
theorem mem_sources_iff :
    w ∈ (sources c).map Prod.fst ↔
      c.wires.contains w = true ∧ c.isGateOutput w = false ∧ ¬ Orphan c w := by
  constructor
  · intro h
    obtain ⟨⟨v, cell⟩, hmem, rfl⟩ := List.mem_map.mp h
    obtain ⟨hc, hs⟩ := mem_sources.mp hmem
    have hraw : c.wires.raw? v = cell.value := by simp [WireStore.raw?, hc]
    refine ⟨WireStore.contains_iff.mpr ⟨cell, hc⟩, not_driven_of_source h, fun orphan => ?_⟩
    have hv := orphan.unknown
    rw [hraw] at hv
    simp [isSource, orphan.not_input, orphan.unpaired, hv] at hs
  · rintro ⟨hreg, hg, horphan⟩
    obtain ⟨cell, hc⟩ := WireStore.contains_iff.mp hreg
    refine List.mem_map.mpr ⟨(w, cell), mem_sources.mpr ⟨hc, ?_⟩, rfl⟩
    by_contra hs
    have hraw : c.wires.raw? w = cell.value := by simp [WireStore.raw?, hc]
    simp only [isSource, hg, Bool.not_false, Bool.true_and, Bool.or_eq_true, not_or,
      Bool.not_eq_true, Option.isSome_eq_false_iff, Option.isNone_iff_eq_none] at hs
    exact horphan ⟨hreg, hs.1.1, hg, hraw.trans hs.1.2, hs.2⟩

theorem not_written_orphan (h : Orphan c w) :
    ¬ (w ∈ (sources c).map Prod.fst ∨ c.isGateOutput w = true) := by
  rintro (hs | hg)
  · exact (mem_sources_iff.mp hs).2.2 h
  · rw [h.not_driven] at hg
    cases hg

theorem written_of_not_orphan (hreg : c.wires.contains w = true) (h : ¬ Orphan c w) :
    w ∈ (sources c).map Prod.fst ∨ c.isGateOutput w = true := by
  cases hg : c.isGateOutput w with
  | true => exact .inr rfl
  | false => exact .inl (mem_sources_iff.mpr ⟨hreg, hg, h⟩)

namespace WellFormed

theorem read_registered (h : WellFormed c) (hw : IsRead c w) : c.wires.contains w = true := by
  obtain ⟨v, g, hg, rfl | rfl⟩ := hw
  · exact (h.gate_registered v g hg).2.1
  · exact (h.gate_registered v g hg).2.2

/-- Nothing is left out if no orphan is read or named as an output. -/
theorem written_iff (h : WellFormed c) :
    Written c ↔ ∀ w, Orphan c w → ¬ IsRead c w ∧ c.isOutput w = false := by
  constructor
  · intro hw w horphan
    refine ⟨fun hread => not_written_orphan horphan (hw.operand w hread), ?_⟩
    rw [← Bool.not_eq_true, h.output_noted]
    intro hout
    obtain ⟨l, hl, rfl⟩ := List.mem_map.mp hout
    exact not_written_orphan horphan (hw.output l hl)
  · refine fun hnone => ⟨fun w hread => ?_, fun l hl => ?_⟩
    · exact written_of_not_orphan (h.read_registered hread) fun horphan => (hnone w horphan).1 hread
    · refine written_of_not_orphan (h.output_registered l hl) fun horphan => ?_
      have hout : c.isOutput l.wire = true := (h.output_noted _).mpr (List.mem_map_of_mem hl)
      rw [(hnone _ horphan).2] at hout
      cases hout

/-- Every wire of a statement is registered, so its index can be spelled. -/
theorem spellable (h : WellFormed c) (hcode : ∀ w g, c.gate? w = some g → g.function.code.val ≠ 0)
    (hlimit : ∀ w, c.wires.contains w = true → 2 * w + 1 < numberLimit) :
    ∀ s ∈ statements c, s.Spellable := by
  have hindex : ∀ l : Literal, c.wires.contains l.wire = true → l.index < numberLimit := by
    intro l hl
    have := hlimit l.wire hl
    cases hi : l.inverted <;> simp [Literal.index, hi] <;> omega
  intro s hs
  rcases mem_statements.mp hs with ⟨l, hl, rfl⟩ | ⟨l, hl, rfl⟩ | ⟨g, hg, rfl⟩
  · obtain ⟨⟨w, cell⟩, hmem, rfl⟩ := List.mem_map.mp hl
    exact hindex _ (WireStore.contains_iff.mpr ⟨cell, (mem_sources.mp hmem).1⟩)
  · exact hindex _ (h.output_registered l hl)
  · have hgate := h.mem_gateList.mp hg
    obtain ⟨hout, ha, hb⟩ := h.gate_registered _ g hgate
    have := hlimit _ hout
    exact ⟨hcode _ g hgate, by omega, hindex ⟨g.a, _⟩ ha, hindex ⟨g.b, _⟩ hb⟩

/-- What is read back is what was written. -/
theorem parse_render (h : WellFormed c)
    (hlimit : ∀ w, c.wires.contains w = true → 2 * w + 1 < numberLimit)
    (hr : parse (render c) = .ok r) :
    (∀ w g, c.gate? w = some g → g.function.code.val ≠ 0) ∧ Consistent (statements c) ∧
      Describes (statements c) r := by
  obtain ⟨ss, hss, hcons, hdesc⟩ := parse_ok hr
  have hcode : ∀ w g, c.gate? w = some g → g.function.code.val ≠ 0 := fun w g hg =>
    code_of_statementsOf hss g (Circuit.mem_gateList.mpr ⟨w, hg⟩)
  rw [statementsOf_render (h.spellable hcode hlimit)] at hss
  cases hss
  exact ⟨hcode, hcons, hdesc⟩

/-- What is written can be read if no gate has the code zero and nothing is left out. -/
theorem can_parse_render (h : WellFormed c)
    (hlimit : ∀ w, c.wires.contains w = true → 2 * w + 1 < numberLimit) :
    (∃ r, parse (render c) = .ok r) ↔
      (∀ w g, c.gate? w = some g → g.function.code.val ≠ 0) ∧ Written c := by
  constructor
  · rintro ⟨r, hr⟩
    obtain ⟨hcode, hcons, -⟩ := h.parse_render hlimit hr
    exact ⟨hcode, h.written hcons⟩
  · rintro ⟨hcode, hw⟩
    exact can_parse (statementsOf_render (h.spellable hcode hlimit)) (h.consistent hw)

end WellFormed

end Circuit

/-! ### Polarities -/

namespace Netlist

theorem polarity_eq (c : Circuit) (w : Nat) :
    polarity c w = ((c.wires.polarity? w).map (·.inverted)).getD false := by
  rw [polarity, WireStore.polarity?]
  cases c.wires.cells[w]? <;> rfl

/-- The sources are written in their polarities. -/
theorem sourceLiterals_eq (c : Circuit) :
    sourceLiterals c = ((sources c).map Prod.fst).map fun w => ⟨w, polarity c w⟩ := by
  rw [sourceLiterals, List.map_map]
  refine List.map_congr_left fun p hp => ?_
  simp [polarity, (mem_sources.mp hp).1]

theorem declaredInverted_statements (hw : w ∈ (sources c).map Prod.fst) :
    declaredInverted (statements c) w = polarity c w := by
  have hmem : w ∈ declared ((sourceLiterals c).map Statement.input) := by
    rw [declared, List.map_map]
    show w ∈ (sourceLiterals c).map Literal.wire
    rwa [sourceLiterals_wires]
  rw [statements_eq, List.append_assoc, declaredInverted_append hmem, declaredInverted]
  cases hfind : ((sourceLiterals c).map Statement.input).find? (·.wire == w) with
  | none =>
    obtain ⟨s, hs, he⟩ := List.mem_map.mp hmem
    exact absurd (List.find?_eq_none.mp hfind s hs) (by simp [he])
  | some s =>
    have hwire : s.wire = w := by simpa using List.find?_some hfind
    obtain ⟨l, hl, rfl⟩ := List.mem_map.mp (List.mem_of_find?_eq_some hfind)
    rw [sourceLiterals_eq] at hl
    obtain ⟨v, -, rfl⟩ := List.mem_map.mp hl
    obtain rfl : v = w := hwire
    rfl

theorem readings_ne_nil (hw : IsRead c w) : readings (statements c) w ≠ [] := by
  obtain ⟨v, g, hg, hw⟩ := hw
  have hmem : Literal.mk w (polarity c w) ∈ (gateStatement c g).reads := by
    rcases hw with rfl | rfl
    · exact List.mem_cons_self ..
    · exact List.mem_cons_of_mem _ (List.mem_cons_self ..)
  have hall : Literal.mk w (polarity c w) ∈ (statements c).flatMap Statement.reads :=
    List.mem_flatMap.mpr
      ⟨_, mem_statements.mpr (.inr (.inr ⟨g, Circuit.mem_gateList.mpr ⟨v, hg⟩, rfl⟩)), hmem⟩
  exact List.ne_nil_of_mem (List.mem_map_of_mem (List.mem_filter.mpr ⟨hall, by simp⟩))

/-- A wire that is read or written as an input ends in the polarity that it is written in. -/
theorem inverted_statements (hw : IsRead c w ∨ w ∈ (sources c).map Prod.fst) :
    (Polarity.ofHistory (polarities (statements c) w)).inverted = polarity c w := by
  by_cases hne : readings (statements c) w = []
  · have hsource := hw.resolve_left fun hread => readings_ne_nil hread hne
    rw [polarities, hne, declaredInverted_statements hsource]
    rfl
  · exact ofHistory_readings (readings_statements w) hne

end Netlist

/-! ### The circuit that is read back -/

namespace Circuit

theorem sources_reread (hr : Describes (statements c) r) (hw : Sound r) :
    (sources r).map Prod.fst = (sources c).map Prod.fst := by
  refine (sources_sorted r).eq_of_mem_iff (sources_sorted c) fun w => ?_
  rw [← inputs_statements c, ← hr.isInput, mem_sources_iff]
  constructor
  · rintro ⟨hreg, hg, -⟩
    -- nothing is written with a value, so a wire without a driver is an input
    rcases hw.supplied hr.origin w hreg with hi | hd | hx
    · exact hi
    · rw [hg] at hd
      cases hd
    · rw [hr.raw?, seed?_statements] at hx
      exact absurd rfl hx
  · intro hi
    refine ⟨hw.input_registered w hi, hw.input_undriven w hi, fun horphan => ?_⟩
    rw [horphan.not_input] at hi
    cases hi

namespace WellFormed

theorem gate?_eq_some_iff (h : WellFormed c) {g : Gate} :
    c.gate? w = some g ↔ g ∈ c.gateList ∧ g.out = w := by
  constructor
  · intro hg
    exact ⟨Circuit.mem_gateList.mpr ⟨w, hg⟩, h.gate_filed w g hg⟩
  · rintro ⟨hg, rfl⟩
    exact h.mem_gateList.mp hg

/-- Without orphans every wire is read back. -/
theorem contains_reread (h : WellFormed c) (hr : Describes (statements c) r)
    (hnone : ∀ w, ¬ Orphan c w) :
    r.wires.contains w = true ↔ c.wires.contains w = true := by
  rw [hr.contains_iff, mem_declared_statements, h.mem_driven]
  constructor
  · rintro (hsource | hout | hdriven)
    · exact (mem_sources_iff.mp hsource).1
    · obtain ⟨l, hl, rfl⟩ := List.mem_map.mp hout
      exact h.output_registered l hl
    · rw [isGateOutput_eq, Option.isSome_iff_exists] at hdriven
      obtain ⟨g, hg⟩ := hdriven
      exact (h.gate_registered w g hg).1
  · intro hreg
    exact (written_of_not_orphan hreg (hnone w)).imp_right .inr

variable (h : WellFormed c) (hs : Consistent (statements c)) (hr : Describes (statements c) r)

include h hs hr

theorem gates_reread (hw : WellFormed r) : r.gates = c.gates := by
  apply Std.ExtTreeMap.ext_getElem?
  intro w
  refine Option.ext fun g => ?_
  have hmem : ∀ k, k ∈ r.gateList ↔ k ∈ c.gateList := fun k => by
    rw [hr.mem_gateList hs.admissible, gates_statements]
  have hrg := hw.gate?_eq_some_iff (w := w) (g := g)
  have hcg := h.gate?_eq_some_iff (w := w) (g := g)
  rw [hmem] at hrg
  exact hrg.trans hcg.symm

/-- What is read, or was written as an input, is registered in the polarity of before. -/
theorem polarity_reread (hw : IsRead c w ∨ w ∈ (sources c).map Prod.fst) :
    (r.wires.polarity? w).map (·.inverted) = (c.wires.polarity? w).map (·.inverted) := by
  obtain ⟨hreg, hdeclared⟩ : c.wires.contains w = true ∧ w ∈ declared (statements c) := by
    rcases hw with hread | hsource
    · refine ⟨h.read_registered hread, mem_declared_statements.mpr ?_⟩
      rcases (h.written hs).operand w hread with hsource | hdriven
      · exact .inl hsource
      · exact .inr (.inr (h.mem_driven.mpr hdriven))
    · exact ⟨(mem_sources_iff.mp hsource).1, mem_declared_statements.mpr (.inl hsource)⟩
  rw [WireStore.contains_eq, Option.isSome_iff_exists] at hreg
  obtain ⟨p, hp⟩ := hreg
  rw [hr.polarity?, if_pos hdeclared, Option.map_some, inverted_statements hw, polarity_eq, hp]
  rfl

/-- What is read back is written as the same statements. -/
theorem statements_reread (hw : Sound r) : statements r = statements c := by
  have hgates := h.gates_reread hs hr hw.toWellFormed
  have hpolarity : ∀ {w}, IsRead c w ∨ w ∈ (sources c).map Prod.fst →
      polarity r w = polarity c w := by
    intro w hwritten
    rw [polarity_eq, polarity_eq, h.polarity_reread hs hr hwritten]
  have hliterals : sourceLiterals r = sourceLiterals c := by
    rw [sourceLiterals_eq, sourceLiterals_eq, sources_reread hr hw]
    exact List.map_congr_left fun w hsource => by rw [hpolarity (.inr hsource)]
  have hlines : r.gateList.map (gateStatement r) = c.gateList.map (gateStatement c) := by
    rw [gateList_congr hgates]
    refine List.map_congr_left fun g hg => ?_
    have hgate := h.mem_gateList.mp hg
    rw [gateStatement, gateStatement, hpolarity (.inl ⟨_, g, hgate, .inl rfl⟩),
      hpolarity (.inl ⟨_, g, hgate, .inr rfl⟩)]
  rw [statements_eq, statements_eq, hliterals, hlines, hr.outputs, outputs_statements]

theorem render_reread (hw : Sound r) (hnone : ∀ w, ¬ Orphan c w) : render r = render c := by
  have hwires : r.numWires = c.numWires :=
    WireStore.size_congr fun _ => h.contains_reread hr hnone
  have hgates : r.numGates = c.numGates := by
    rw [← length_gateList, ← length_gateList, gateList_congr (h.gates_reread hs hr hw.toWellFormed)]
  rw [render, render, h.statements_reread hs hr hw, heading, heading, hwires, hgates]

end WellFormed

/-- A netlist that is written can be read back exactly if no gate has the code zero and no orphan is read
by a gate or named as an output. The circuit that is read back has the same gates, with the same tally,
and the same outputs; its inputs are the wires without a driver, orphans apart; these and the wires that
gates read have the polarities of before. If there is no orphan, it is written as the same text. -/
theorem reread_written (hc : Reachable c)
    (hlimit : ∀ w, c.wires.contains w = true → w < 9223372036854775808) :
    ((∃ r, parse (render c) = .ok r) ↔
      (∀ w g, c.gate? w = some g → g.function.code ≠ 0) ∧
        ∀ w, Orphan c w → ¬ IsRead c w ∧ c.isOutput w = false) ∧
    ∀ r, parse (render c) = .ok r →
      r.gates = c.gates ∧ r.tally = c.tally ∧ r.outputs = c.outputs ∧
      (∀ w, r.isInput w = true ↔
        c.wires.contains w = true ∧ c.isGateOutput w = false ∧ ¬ Orphan c w) ∧
      (∀ w, IsRead c w ∨ (c.wires.contains w = true ∧ c.isGateOutput w = false ∧ ¬ Orphan c w) →
        (r.wires.polarity? w).map (·.inverted) = (c.wires.polarity? w).map (·.inverted)) ∧
      ((∀ w, ¬ Orphan c w) → render r = render c) := by
  have h := hc.sound
  have hlimit' : ∀ w, c.wires.contains w = true → 2 * w + 1 < numberLimit := fun w hw => by
    have := hlimit w hw
    rw [numberLimit]
    omega
  constructor
  · rw [h.can_parse_render hlimit', h.written_iff]
    exact and_congr_left fun _ => forall₃_congr fun w g hg => not_congr Fin.val_eq_zero_iff
  · intro r hparsed
    obtain ⟨-, hs, hr⟩ := h.parse_render hlimit' hparsed
    have hw := (Reachable.parsed hparsed).sound
    have hgates := h.gates_reread hs hr hw.toWellFormed
    refine ⟨hgates, ?_, hr.outputs.trans (outputs_statements c), fun w => ?_, fun w hwritten => ?_,
      fun hnone => h.render_reread hs hr hw hnone⟩
    · refine GateTally.ext_count fun f => ?_
      rw [hw.tally, h.tally, gateList_congr hgates]
    · rw [hr.isInput, inputs_statements, mem_sources_iff]
    · rw [← mem_sources_iff] at hwritten
      exact h.polarity_reread hs hr hwritten

/-- An exclusive-or with an inverted output is read back, also beside an orphan. -/
theorem reread_written_beside_orphan :
    ∃ c r, Reachable c ∧ Orphan c 2 ∧ parse (render c) = .ok r ∧ r.gates = c.gates ∧
      r.outputs = [⟨4, true⟩] ∧ r.isInput 2 = false ∧ r.isInput 1 = true := by
  obtain ⟨c, hc, horphan, hout, hinput, hwires, r, hr⟩ : ∃ c, Reachable c ∧ Orphan c 2 ∧
      c.outputs = [⟨4, true⟩] ∧ (c.wires.contains 1 = true ∧ c.isGateOutput 1 = false ∧
      c.isInput 1 = true) ∧ (c.wires.entries.all fun p => p.1 < 9223372036854775808) = true ∧
      ∃ r, parse (render c) = .ok r := by
    have hwire := (Reachable.empty.operated (.build (.issueInputs 2)) rfl).operated
      (.build .issueWire) rfl
    have hgates := (hwire.operated (.build (.addGate .xor 0 1)) rfl).operated
      (.build (.invert 3)) rfl
    exact ⟨_, hgates.operated (.addOutput 4) rfl, ⟨rfl, rfl, rfl, rfl, rfl⟩, rfl,
      ⟨rfl, rfl, rfl⟩, rfl, _, rfl⟩
  have hlimit : ∀ w, c.wires.contains w = true → w < 9223372036854775808 := fun w hw => by
    obtain ⟨cell, hc⟩ := WireStore.contains_iff.mp hw
    simpa using List.all_eq_true.mp hwires (w, cell)
      (Std.ExtTreeMap.mem_toList_iff_getElem?_eq_some.mpr hc)
  obtain ⟨hgates, -, houtputs, hinputs, -⟩ := (reread_written hc hlimit).2 r hr
  refine ⟨c, r, hc, horphan, hr, hgates, houtputs.trans hout, ?_, ?_⟩
  · rw [← Bool.not_eq_true, hinputs]
    exact fun h => h.2.2 horphan
  · refine (hinputs 1).mpr ⟨hinput.1, hinput.2.1, fun h => ?_⟩
    exact Bool.false_ne_true (h.not_input.symm.trans hinput.2.2)

end Circuit

end GateNet
