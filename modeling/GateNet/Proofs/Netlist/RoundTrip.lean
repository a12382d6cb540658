import GateNet.Proofs.Netlist.Rereading

/-!
Writing a circuit out and reading it back. A circuit that was evaluated is written as a netlist and a
value file; read back they give a circuit with the same gates and outputs in which what gates read has
its polarity of before, and in which every wire that no gate drives holds the raw value of before. So
evaluating it leads to the raw values of before on every wire.
-/

namespace GateNet

open Circuit Netlist Text

variable {c d r : Circuit}

/-! ### The values -/

namespace Values

/-- The values that are written. -/
def assignments (c : Circuit) : List (Nat × Bool) :=
  (sources c).filterMap fun (w, cell) => cell.value.map (w, ·)

theorem mem_assignments {w : Nat} {x : Bool} :
    (w, x) ∈ assignments c ↔ c.wires.raw? w = some x ∧ c.isGateOutput w = false := by
  rw [assignments, List.mem_filterMap]
  constructor
  · rintro ⟨⟨v, cell⟩, hs, hx⟩
    obtain ⟨y, hy, he⟩ := Option.map_eq_some_iff.mp hx
    cases he
    exact ⟨by simp [WireStore.raw?, (mem_sources.mp hs).1, hy],
      not_driven_of_source (List.mem_map.mpr ⟨_, hs, rfl⟩)⟩
  · rintro ⟨hx, hg⟩
    have hknown : c.wires.raw? w ≠ none := by simp [hx]
    rcases source_or_driven hknown with hs | hd
    · obtain ⟨⟨v, cell⟩, hmem, rfl⟩ := List.mem_map.mp hs
      have hc := (mem_sources.mp hmem).1
      have hv : cell.value = some x := by simpa [WireStore.raw?, hc] using hx
      exact ⟨(v, cell), hmem, by simp [hv]⟩
    · rw [hg] at hd
      cases hd

theorem assignments_nodup (c : Circuit) : ((assignments c).map Prod.fst).Nodup := by
  rw [assignments, List.Nodup, List.pairwise_map, List.pairwise_filterMap]
  refine (List.pairwise_map.mp (sources_nodup c)).imp ?_
  intro p q hne a ha b hb he
  obtain ⟨x, -, rfl⟩ := Option.map_eq_some_iff.mp ha
  obtain ⟨y, -, rfl⟩ := Option.map_eq_some_iff.mp hb
  exact hne he

theorem render_eq (c : Circuit) :
    render c = String.join ((assignments c).map fun p => lineText p.1 p.2 ++ "\n") := by
  rw [render, assignments, List.map_filterMap]
  simp [Option.map_map, Function.comp_def]

theorem lines_render (c : Circuit) :
    lines (render c).toList = (assignments c).map fun p => (lineText p.1 p.2).toList := by
  have hjoin : (render c).toList =
      ((assignments c).map fun p => (lineText p.1 p.2).toList).flatMap (· ++ ['\n']) := by
    simp [render_eq, String.toList_join, List.flatMap_map]
  rw [hjoin, lines_joined]
  intro l hl
  obtain ⟨p, -, rfl⟩ := List.mem_map.mp hl
  rw [lineText_toList]
  exact no_break fun t ht => (lineText_clean p.1 p.2 t ht).isWord

/-- The store after some raw values are written. -/
def writeAll (s : WireStore) (values : List (Nat × Bool)) : WireStore :=
  values.foldl (fun s p => s.write p.1 p.2) s

theorem polarity?_writeAll (s : WireStore) (values : List (Nat × Bool)) (w : Nat) :
    (writeAll s values).polarity? w = s.polarity? w := by
  induction values generalizing s with
  | nil => rfl
  | cons p rest ih =>
    rw [writeAll, List.foldl_cons, ← writeAll, ih, WireStore.polarity?_write]

theorem raw?_writeAll_of_not_mem {s : WireStore} {values : List (Nat × Bool)} {w : Nat}
    (h : w ∉ values.map Prod.fst) : (writeAll s values).raw? w = s.raw? w := by
  induction values generalizing s with
  | nil => rfl
  | cons p rest ih =>
    rw [List.map_cons, List.mem_cons, not_or] at h
    rw [writeAll, List.foldl_cons, ← writeAll, ih h.2]
    exact WireStore.raw?_write_of_ne (fun e => h.1 e.symm) _

theorem raw?_writeAll {s : WireStore} {values : List (Nat × Bool)}
    (hn : (values.map Prod.fst).Nodup) {w : Nat} {x : Bool} (h : (w, x) ∈ values)
    (hw : s.contains w = true) : (writeAll s values).raw? w = some x := by
  induction values generalizing s with
  | nil => cases h
  | cons p rest ih =>
    rw [List.map_cons, List.nodup_cons] at hn
    rw [writeAll, List.foldl_cons, ← writeAll]
    rcases List.mem_cons.mp h with rfl | h
    · rw [raw?_writeAll_of_not_mem hn.1, WireStore.raw?_write_self hw]
    · exact ih hn.2 h (by rwa [WireStore.contains_write])

/-- Lines that give values to registered wires are all loaded. -/
theorem run_loadLine {values : List (Nat × Bool)} {n : Nat}
    (h : ∀ p ∈ values, r.wires.contains p.1 = true ∧ 2 * p.1 < numberLimit) :
    runSteps loadLine r ((values.map fun p => (lineText p.1 p.2).toList).zipIdx n) =
      ⟨{ r with wires := writeAll r.wires values }, none⟩ := by
  induction values generalizing r n with
  | nil => rfl
  | cons p rest ih =>
    obtain ⟨hw, hlimit⟩ := h p (List.mem_cons_self ..)
    have hline : loadLine r ((lineText p.1 p.2).toList, n) =
        .ok { r with wires := r.wires.write p.1 p.2 } :=
      loadLine_ok_iff.mpr (.inr ⟨p.1, p.2, ofLine_lineText hlimit p.2, hw, rfl⟩)
    rw [List.map_cons, List.zipIdx_cons, runSteps_cons_ok hline, ih fun q hq => ?_]
    · rfl
    · obtain ⟨hq, hql⟩ := h q (List.mem_cons_of_mem p hq)
      exact ⟨by rwa [WireStore.contains_write], hql⟩

theorem load_render (h : ∀ p ∈ assignments c, r.wires.contains p.1 = true ∧ 2 * p.1 < numberLimit) :
    load r (render c) = ⟨{ r with wires := writeAll r.wires (assignments c) }, none⟩ := by
  rw [load, numberedLines, lines_render]
  exact run_loadLine h

end Values

/-! ### The circuit that is read back -/

namespace Circuit

theorem outputValue_ok_iff {l : Literal} {x : Bool} :
    c.outputValue l = .ok x ↔ ∃ raw, c.wires.raw? l.wire = some raw ∧ x = (raw ^^ l.inverted) := by
  simp only [outputValue, cell, bind_ok_iff, mapError_ok_iff, WireStore.cell_eq_ok_iff,
    WireStore.raw?, Option.bind_eq_some_iff]
  constructor
  · rintro ⟨cell, hc, h⟩
    cases hv : cell.value with
    | none => rw [hv] at h; cases h
    | some raw =>
      rw [hv] at h
      exact ⟨raw, ⟨cell, hc, hv⟩, (pure_ok_iff.mp h).symm⟩
  · rintro ⟨raw, ⟨cell, hc, hv⟩, rfl⟩
    exact ⟨cell, hc, by rw [hv]; rfl⟩

/-- Outputs are delivered alike where the raw values are the same. -/
theorem outputBits_congr {s : String} (houtputs : d.outputs = c.outputs)
    (hraw : ∀ w, d.wires.raw? w = c.wires.raw? w) (h : c.outputBits = .ok s) :
    d.outputBits = .ok s := by
  obtain ⟨bits, hbits, hs⟩ := map_ok_iff.mp h
  refine map_ok_iff.mpr ⟨bits, ?_, hs⟩
  rw [outputValues] at hbits ⊢
  rw [houtputs]
  refine mapM_ok_congr (fun l x hx => ?_) hbits
  obtain ⟨raw, hr, hx⟩ := outputValue_ok_iff.mp hx
  exact outputValue_ok_iff.mpr ⟨raw, (hraw _).trans hr, hx⟩

/-- A circuit whose execution succeeded and that delivers its outputs has all values in place. -/
theorem Reachable.evaluated {s : String} (h : Reachable d) (hx : d.execute = ⟨c, none⟩)
    (hs : c.outputBits = .ok s) : Evaluated c := by
  have hd := h.wellFormed
  have hok : d.settle.failure = none := congrArg Attempt.failure hx
  have hc : c = { d with wires := d.settle.state } := (congrArg Attempt.state hx).symm
  have wf : WellFormed c := hd.sameStructure (hc ▸ hd.sameGiven_settle.toSameStructure)
  exact { wf with
    gate_value := fun w g hg => by
      rw [hc] at hg ⊢
      exact hd.settle_gate hok hg
    output_value := fun l hl => by
      obtain ⟨bits, hbits, -⟩ := map_ok_iff.mp hs
      obtain ⟨x, hx⟩ := mapM_ok_mem hbits l hl
      obtain ⟨raw, hraw, -⟩ := outputValue_ok_iff.mp hx
      simp [hraw] }

namespace Evaluated

/-- What is written with a value is read back as an input. -/
theorem assignments_registered (hr : Describes (statements c) r) {w : Nat} {x : Bool}
    (hx : (w, x) ∈ Values.assignments c) :
    c.wires.contains w = true ∧ r.wires.contains w = true := by
  obtain ⟨hx, hg⟩ := Values.mem_assignments.mp hx
  obtain ⟨cell, hc, -⟩ := Option.bind_eq_some_iff.mp hx
  have hknown : c.wires.raw? w ≠ none := by simp [hx]
  have hsource : w ∈ Netlist.inputs (statements c) := by
    rw [inputs_statements]
    exact (source_or_driven hknown).resolve_right (by simp [hg])
  exact ⟨WireStore.contains_iff.mpr ⟨cell, hc⟩,
    hr.contains_iff.mpr (mem_inputs_declared hsource)⟩

variable (h : Evaluated c) (hr : Describes (statements c) r)

include h hr

/-- With the values loaded, what no gate drives holds the raw value of before, known or not. -/
theorem raw?_loaded {w : Nat} (hw : NotDriven c.gateList w) :
    (Values.writeAll r.wires (Values.assignments c)).raw? w = c.wires.raw? w := by
  cases hx : c.wires.raw? w with
  | none =>
    have hnot : w ∉ (Values.assignments c).map Prod.fst := by
      intro hmem
      obtain ⟨⟨v, y⟩, hp, rfl⟩ := List.mem_map.mp hmem
      rw [(Values.mem_assignments.mp hp).1] at hx
      cases hx
    rw [Values.raw?_writeAll_of_not_mem hnot, hr.raw?, seed?_statements]
  | some x =>
    have hmem := Values.mem_assignments.mpr ⟨hx, h.notDriven_iff.mp hw⟩
    exact Values.raw?_writeAll (Values.assignments_nodup c) hmem (assignments_registered hr hmem).2

/-- The pass over the gates reaches the raw values of before. -/
theorem pass_loaded (hw : WellFormed r) :
    ∃ e, runSteps evaluateGate (Values.writeAll r.wires (Values.assignments c)) c.gateList =
      ⟨e, none⟩ ∧ ∀ w, e.raw? w = c.wires.raw? w := by
  refine pass_reaches h.ascending (fun g hg => ?_) (fun g hg w hw => ?_) (fun g hg => ?_)
    fun w hw => h.raw?_loaded hr hw
  · exact h.gate_value _ g (h.mem_gateList.mp hg)
  · rw [Values.polarity?_writeAll]
    exact h.polarity_reread h.consistent hr (.inl ⟨_, g, h.mem_gateList.mp hg, hw⟩)
  · have hgate : r.gate? g.out = some g := by
      rw [gate?, h.gates_reread h.consistent hr hw]
      exact h.mem_gateList.mp hg
    rw [WireStore.contains_eq, Values.polarity?_writeAll, ← WireStore.contains_eq]
    exact (hw.gate_registered _ g hgate).1

/-- The circuit that is read back, with the values of before loaded into it, evaluates to the raw
values of before. -/
theorem reread_execute (hw : WellFormed r)
    (hlimit : ∀ w, c.wires.contains w = true → 2 * w + 1 < numberLimit) :
    ∃ l e, Values.load r (Values.render c) = ⟨l, none⟩ ∧ l.execute = ⟨e, none⟩ ∧
      e.outputs = c.outputs ∧ e.gates = c.gates ∧ ∀ w, e.wires.raw? w = c.wires.raw? w := by
  have hload : ∀ p ∈ Values.assignments c,
      r.wires.contains p.1 = true ∧ 2 * p.1 < numberLimit := by
    rintro ⟨w, x⟩ hp
    obtain ⟨hc, hr⟩ := assignments_registered hr hp
    have := hlimit w hc
    exact ⟨hr, by omega⟩
  let l : Circuit := { r with wires := Values.writeAll r.wires (Values.assignments c) }
  have hl : WellFormed l := hw.sameStructure ⟨Values.polarity?_writeAll _ _, rfl⟩
  have hgates : r.gates = c.gates := h.gates_reread h.consistent hr hw
  have hgateList : l.gateList = c.gateList := congrArg Std.ExtTreeMap.values hgates
  have hrefreshed : l.refreshed = l.wires := by
    rw [refreshed, show l.inputComplements = [] from hr.inputComplements, List.foldl_nil]
  obtain ⟨e, hrun, he⟩ := h.pass_loaded hr hw
  have hsettle : l.settle = ⟨e, none⟩ := by rw [hl.settle_eq, hgateList, hrefreshed, hrun]
  refine ⟨l, { l with wires := e }, Values.load_render hload, ?_, ?_, hgates, he⟩
  · rw [execute, hsettle]
  · exact hr.outputs.trans (outputs_statements c)

end Evaluated

/-- A circuit that was executed and delivers its outputs is written as a netlist and a value file that
can be read back. The circuit read back can be executed, delivers the same outputs, and has the same
gates with the same raw values. -/
theorem written_evaluates_alike {c₀ : Circuit} {s : String} (h : Reachable c₀)
    (hx : c₀.execute = ⟨c, none⟩) (hs : c.outputBits = .ok s)
    (hcode : ∀ w g, c.gate? w = some g → g.function.code ≠ 0)
    (hlimit : ∀ w, c.wires.contains w = true → w < 9223372036854775808) :
    ∃ r l e, parse (Netlist.render c) = .ok r ∧ Values.load r (Values.render c) = ⟨l, none⟩ ∧
      l.execute = ⟨e, none⟩ ∧ e.outputBits = .ok s ∧
      ∀ w, e.isGateOutput w = c.isGateOutput w ∧
        (c.isGateOutput w = true → e.wires.raw? w = c.wires.raw? w) := by
  have heval := h.evaluated hx hs
  have hlimit' : ∀ w, c.wires.contains w = true → 2 * w + 1 < numberLimit := fun w hw => by
    have := hlimit w hw
    rw [numberLimit]
    omega
  have hspell := heval.spellable (fun w g hg he => hcode w g hg (Fin.ext he)) hlimit'
  obtain ⟨r, hr⟩ := can_parse (statementsOf_render hspell) heval.consistent
  obtain ⟨ss, hss, hcons, hdesc⟩ := parse_ok hr
  rw [statementsOf_render hspell] at hss
  obtain rfl := Except.ok.inj hss
  obtain ⟨l, e, hl, he, houtputs, hgates, hraw⟩ :=
    heval.reread_execute hdesc (WellFormed.ofNetlist hdesc hcons) hlimit'
  refine ⟨r, l, e, hr, hl, he, outputBits_congr houtputs hraw hs, fun w => ⟨?_, fun _ => hraw w⟩⟩
  rw [isGateOutput, isGateOutput, hgates]

/-- A circuit with an inverted exclusive-or that another gate reads, built up and executed. -/
theorem written_evaluates_alike_inverted :
    ∃ c₀ c, Reachable c₀ ∧ c₀.execute = ⟨c, none⟩ ∧ c.outputBits = .ok "01" ∧
      ∃ r l e, parse (Netlist.render c) = .ok r ∧ Values.load r (Values.render c) = ⟨l, none⟩ ∧
        l.execute = ⟨e, none⟩ ∧ e.outputBits = .ok "01" := by
  obtain ⟨c₀, c, h, hx, hs, hgates, hwires⟩ : ∃ c₀ c, Reachable c₀ ∧ c₀.execute = ⟨c, none⟩ ∧
      c.outputBits = .ok "01" ∧ (c.gateList.all fun g => g.function.code ≠ 0) = true ∧
      (c.wires.entries.all fun p => p.1 < 9223372036854775808) = true := by
    have hinputs := (Reachable.empty.operated (.build (.issueInputs 2)) rfl).operated
      (.assignWord ⟨[0, 1]⟩ 1) rfl
    have hgates := ((hinputs.operated (.build (.addGate .xor 0 1)) rfl).operated
      (.build (.invert 2)) rfl).operated (.build (.addGate .or 3 0)) rfl
    exact ⟨_, _, hgates.operated (.markOutput ⟨[4, 3]⟩) rfl, rfl, rfl, rfl, rfl⟩
  have hcode : ∀ w g, c.gate? w = some g → g.function.code ≠ 0 := fun w g hg => by
    simpa using List.all_eq_true.mp hgates g (Circuit.mem_gateList.mpr ⟨w, hg⟩)
  have hlimit : ∀ w, c.wires.contains w = true → w < 9223372036854775808 := fun w hw => by
    obtain ⟨cell, hc⟩ := WireStore.contains_iff.mp hw
    simpa using List.all_eq_true.mp hwires (w, cell)
      (Std.ExtTreeMap.mem_toList_iff_getElem?_eq_some.mpr hc)
  obtain ⟨r, l, e, hr, hl, he, hbits, -⟩ := written_evaluates_alike h hx hs hcode hlimit
  exact ⟨c₀, c, h, hx, hs, r, l, e, hr, hl, he, hbits⟩

end Circuit

end GateNet
