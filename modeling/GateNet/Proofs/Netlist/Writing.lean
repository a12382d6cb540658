import GateNet.Proofs.Solution
import GateNet.Proofs.Text.Spelling

/-!
Writing a netlist. The statements that are written are read back from the text, and they are consistent
exactly if no wire that a gate reads or an output names is left out. For then a wire that is read is
written before it is, as an input or as an earlier gate, and every reader writes it in its one polarity.
-/

namespace GateNet

open Circuit Netlist Text

variable {c : Circuit}

namespace Netlist

/-! ### The text -/

/-- The words of the heading. -/
def headingTokens (c : Circuit) : List (List Char) :=
  [['#'], digits c.numWires, "wires,".toList, digits c.numGates, "gates".toList]

theorem heading_toList (c : Circuit) : (heading c).toList = spaced (headingTokens c) := by
  simp [heading, headingTokens, spaced, toString]

theorem headingTokens_isWord (c : Circuit) : ∀ w ∈ headingTokens c, IsWord w := by
  intro w hw
  simp only [headingTokens, List.mem_cons, List.not_mem_nil, or_false] at hw
  rcases hw with rfl | rfl | rfl | rfl | rfl
  · exact isWord_of_all (by decide) rfl
  · exact isWord_digits _
  · exact isWord_of_all (by decide) rfl
  · exact isWord_digits _
  · exact isWord_of_all (by decide) rfl

theorem ofLine_heading (c : Circuit) : Statement.ofLine (heading c).toList = .ok none := by
  have hcomment : (heading c).toList.contains '#' = true := by
    rw [heading_toList]
    rfl
  rw [Statement.ofLine, if_pos hcomment]

theorem lines_render (c : Circuit) :
    lines (render c).toList =
      (heading c).toList :: (statements c).map fun s => s.text.toList := by
  have hjoin : (render c).toList =
      ((heading c).toList :: (statements c).map fun s => s.text.toList).flatMap (· ++ ['\n']) := by
    simp [render, String.toList_join, List.flatMap_map]
  rw [hjoin, lines_joined]
  intro l hl
  rcases List.mem_cons.mp hl with rfl | hl
  · rw [heading_toList]
    exact no_break (headingTokens_isWord c)
  · obtain ⟨s, -, rfl⟩ := List.mem_map.mp hl
    rw [Statement.text_toList]
    exact no_break fun w hw => (s.tokens_clean w hw).isWord

/-- The lines of a netlist are the heading, which says nothing, and one for each statement. -/
theorem mapM_ofLine_render (h : ∀ s ∈ statements c, s.Spellable) :
    (lines (render c).toList).mapM Statement.ofLine = .ok (none :: (statements c).map some) := by
  have hstatements : ((statements c).map fun s => s.text.toList).mapM Statement.ofLine =
      .ok ((statements c).map some) := mapM_map_ok fun s hs => Statement.ofLine_text (h s hs)
  rw [lines_render]
  exact mapM_cons_ok_iff.mpr ⟨none, _, ofLine_heading c, hstatements, rfl⟩

/-- The statements that are written are read back. -/
theorem statementsOf_render (h : ∀ s ∈ statements c, s.Spellable) :
    statementsOf (render c) = .ok (statements c) :=
  statementsOf_ok_iff.mpr ⟨_, mapM_ofLine_render h, by simp⟩

/-! ### What the statements say -/

theorem mem_sources {w : Nat} {cell : Cell} :
    (w, cell) ∈ sources c ↔ c.wires.cells[w]? = some cell ∧ isSource c w cell = true := by
  rw [sources, WireStore.entries, List.mem_filter, Std.ExtTreeMap.mem_toList_iff_getElem?_eq_some]

theorem sources_sorted (c : Circuit) : ((sources c).map Prod.fst).Pairwise (· < ·) := by
  rw [List.pairwise_map]
  exact (Std.ExtTreeMap.ordered_keys_toList.filter _).imp Nat.compare_eq_lt.mp

theorem sources_nodup (c : Circuit) : ((sources c).map Prod.fst).Nodup :=
  (sources_sorted c).imp Nat.ne_of_lt

/-- The statements for the sources. -/
def sourceLiterals (c : Circuit) : List Literal :=
  (sources c).map fun (w, cell) => ⟨w, cell.polarity.inverted⟩

theorem statements_eq (c : Circuit) :
    statements c = (sourceLiterals c).map Statement.input ++
      c.outputs.map (fun l => .output l none) ++ c.gateList.map (gateStatement c) := by
  rw [statements, sourceLiterals, List.map_map]
  rfl

theorem sourceLiterals_wires (c : Circuit) :
    (sourceLiterals c).map Literal.wire = (sources c).map Prod.fst := by
  rw [sourceLiterals, List.map_map]
  rfl

theorem filterMap_statements {α : Type} (f : Statement → Option α) (c : Circuit) :
    (statements c).filterMap f =
      (sourceLiterals c).filterMap (fun l => f (.input l)) ++
        c.outputs.filterMap (fun l => f (.output l none)) ++
        c.gateList.filterMap fun g => f (gateStatement c g) := by
  rw [statements_eq, List.filterMap_append, List.filterMap_append, List.filterMap_map,
    List.filterMap_map, List.filterMap_map]
  rfl

theorem inputs_statements (c : Circuit) : inputs (statements c) = (sources c).map Prod.fst := by
  rw [inputs, filterMap_statements, ← sourceLiterals_wires]
  simp [Statement.input?, gateStatement]

theorem outputs_statements (c : Circuit) : outputs (statements c) = c.outputs := by
  rw [outputs, filterMap_statements]
  simp [Statement.output?, gateStatement]

theorem gates_statements (c : Circuit) : gates (statements c) = c.gateList := by
  rw [gates, filterMap_statements]
  simp [Statement.gate?, gateStatement]

theorem driven_statements (c : Circuit) : driven (statements c) = c.gateList.map Gate.out := by
  rw [driven, gates_statements]

theorem mem_statements {s : Statement} :
    s ∈ statements c ↔ (∃ l ∈ sourceLiterals c, s = .input l) ∨
      (∃ l ∈ c.outputs, s = .output l none) ∨ ∃ g ∈ c.gateList, s = gateStatement c g := by
  simp [statements_eq, eq_comm]

theorem mem_declared_statements {w : Nat} :
    w ∈ declared (statements c) ↔ w ∈ (sources c).map Prod.fst ∨
      w ∈ c.outputs.map Literal.wire ∨ w ∈ c.gateList.map Gate.out := by
  rw [declared, statements_eq, List.map_append, List.map_append, List.mem_append, List.mem_append,
    or_assoc, ← sourceLiterals_wires, List.map_map, List.map_map, List.map_map]
  rfl

/-- No value is written with an output. -/
theorem seed?_statements (c : Circuit) (w : Nat) : seed? (statements c) w = none := by
  rw [seed?, List.findSome?_eq_none_iff]
  intro s hs
  rcases mem_statements.mp hs with ⟨l, -, rfl⟩ | ⟨l, -, rfl⟩ | ⟨g, -, rfl⟩
  · rfl
  · simp [Statement.seedFor?]
  · rfl

/-- Every reading of a wire is written in the polarity that the wire is registered in. -/
theorem readings_statements (w : Nat) : ∀ r ∈ readings (statements c) w, r = polarity c w := by
  intro r hr
  obtain ⟨l, hl, rfl⟩ := List.mem_map.mp hr
  obtain ⟨hl, hw⟩ := List.mem_filter.mp hl
  have hw : l.wire = w := by simpa using hw
  obtain ⟨s, hs, hls⟩ := List.mem_flatMap.mp hl
  rcases mem_statements.mp hs with ⟨l, -, rfl⟩ | ⟨l, -, rfl⟩ | ⟨g, -, rfl⟩
  · cases hls
  · cases hls
  · have hlg : l = ⟨g.a, polarity c g.a⟩ ∨ l = ⟨g.b, polarity c g.b⟩ := by
      simpa [gateStatement, Statement.reads] using hls
    rcases hlg with rfl | rfl
    · rw [← hw]
    · rw [← hw]

theorem changes_const {p : Bool} {rs : List Bool} (h : ∀ r ∈ rs, r = p) : changes (p :: rs) = 0 := by
  induction rs with
  | nil => rfl
  | cons r rest ih =>
    cases h r (List.mem_cons_self ..)
    rw [changes, if_pos rfl, ih fun r' hr' => h r' (List.mem_cons_of_mem _ hr')]

/-- A wire that is read in one polarity only is turned once at most. -/
theorem changes_readings {d p : Bool} {rs : List Bool} (h : ∀ r ∈ rs, r = p) :
    changes (d :: rs) ≤ 1 := by
  cases rs with
  | nil => exact Nat.zero_le _
  | cons r rest =>
    cases h r (List.mem_cons_self ..)
    rw [changes, changes_const fun r' hr' => h r' (List.mem_cons_of_mem _ hr')]
    split <;> omega

/-- Once such a wire is read, it stays in the polarity of its readers. -/
theorem ofHistory_readings {d p : Bool} {rs : List Bool} (h : ∀ r ∈ rs, r = p) (hne : rs ≠ []) :
    (Polarity.ofHistory (d :: rs)).inverted = p := by
  have hlast : (d :: rs).getLastD false = rs.getLast hne := by
    rw [List.getLastD_eq_getLast?, List.getLast?_cons, List.getLast?_eq_some_getLast hne]
    rfl
  rw [Polarity.ofHistory, hlast]
  exact h _ (List.getLast_mem hne)

/-! ### The statements are consistent -/

theorem admissible_inputs {ls : List Literal} {before : List Statement}
    (hn : (ls.map Literal.wire).Nodup) (hb : ∀ l ∈ ls, l.wire ∉ declared before) :
    AdmissibleAfter before (ls.map Statement.input) := by
  induction ls generalizing before with
  | nil => trivial
  | cons l rest ih =>
    rw [List.map_cons, List.nodup_cons] at hn
    refine ⟨hb l (List.mem_cons_self ..), ih hn.2 fun l' hl' hmem => ?_⟩
    rw [declared_concat, List.mem_append, List.mem_singleton] at hmem
    rcases hmem with hmem | he
    · exact hb l' (List.mem_cons_of_mem l hl') hmem
    · exact hn.1 (List.mem_map.mpr ⟨l', hl', he⟩)

theorem admissible_outputs {ls : List Literal} {before : List Statement}
    (hn : (ls.map Literal.wire).Nodup) (hb : ∀ l ∈ ls, l.wire ∉ (outputs before).map Literal.wire) :
    AdmissibleAfter before (ls.map fun l => Statement.output l none) := by
  induction ls generalizing before with
  | nil => trivial
  | cons l rest ih =>
    rw [List.map_cons, List.nodup_cons] at hn
    refine ⟨hb l (List.mem_cons_self ..), ih hn.2 fun l' hl' hmem => ?_⟩
    rw [outputs_concat, List.map_append, List.mem_append] at hmem
    rcases hmem with hmem | he
    · exact hb l' (List.mem_cons_of_mem l hl') hmem
    · exact hn.1 (List.mem_map.mpr ⟨l', hl', by simpa [Statement.output?] using he⟩)

/-- Gates are declared by ascending output if each reads declared wires or other gates of the list. -/
theorem admissible_gates {gs : List Gate} (asc : Ascending gs) {before : List Statement}
    (hout : ∀ g ∈ gs, g.out ∉ driven before ∧ g.out ∉ inputs before)
    (hreads : ∀ g ∈ gs, ∀ v, v = g.a ∨ v = g.b → v ∈ declared before ∨ ∃ k ∈ gs, k.out = v) :
    AdmissibleAfter before (gs.map (gateStatement c)) := by
  induction gs generalizing before with
  | nil => trivial
  | cons g rest ih =>
    have hg : g ∈ g :: rest := List.mem_cons_self ..
    have hself := asc.head_reads g hg
    -- the first gate reads no other gate of the list, so what it reads is declared
    have hdecl : ∀ v, v = g.a ∨ v = g.b → v ∈ declared before := by
      intro v hv
      rcases hreads g hg v hv with h | ⟨k, hk, he⟩
      · exact h
      · rcases hv with rfl | rfl
        · exact absurd he (asc.head_reads k hk).1
        · exact absurd he (asc.head_reads k hk).2
    refine ⟨⟨hout g hg, ⟨hdecl _ (.inl rfl), hself.1.symm⟩, hdecl _ (.inr rfl), hself.2.symm⟩,
      ih asc.tail (fun k hk => ?_) fun k hk v hv => ?_⟩
    · obtain ⟨hd, hi⟩ := hout k (List.mem_cons_of_mem g hk)
      refine ⟨fun hmem => ?_, by simpa [gateStatement, Statement.input?] using hi⟩
      have hmem : k.out ∈ driven before ∨ k.out = g.out := by
        simpa [driven, gateStatement, Statement.gate?] using hmem
      exact hmem.elim hd (asc.head_out k hk)
    · rw [declared_concat, List.mem_append]
      rcases hreads k (List.mem_cons_of_mem g hk) v hv with h | ⟨k', hk', rfl⟩
      · exact .inl (.inl h)
      · rcases List.mem_cons.mp hk' with rfl | hk'
        · exact .inl (.inr (List.mem_singleton.mpr rfl))
        · exact .inr ⟨k', hk', rfl⟩

/-! ### Which wires are written -/

/-- A wire with a value is written as an input, or as the output of a gate. -/
theorem source_or_driven {w : Nat} (h : c.wires.raw? w ≠ none) :
    w ∈ (sources c).map Prod.fst ∨ c.isGateOutput w = true := by
  obtain ⟨x, hx⟩ := Option.ne_none_iff_exists'.mp h
  obtain ⟨cell, hc, hv⟩ := Option.bind_eq_some_iff.mp hx
  cases hg : c.isGateOutput w with
  | true => exact .inr rfl
  | false =>
    refine .inl (List.mem_map.mpr ⟨(w, cell), mem_sources.mpr ⟨hc, ?_⟩, rfl⟩)
    simp [isSource, hg, hv]

theorem not_driven_of_source {w : Nat} (h : w ∈ (sources c).map Prod.fst) :
    c.isGateOutput w = false := by
  obtain ⟨⟨v, cell⟩, hs, rfl⟩ := List.mem_map.mp h
  have hsource := (mem_sources.mp hs).2
  rw [isSource, Bool.and_eq_true, Bool.not_eq_true'] at hsource
  exact hsource.1

end Netlist

namespace Circuit

/-- A gate reads the wire. -/
def IsRead (c : Circuit) (w : Nat) : Prop := ∃ v g, c.gate? v = some g ∧ (w = g.a ∨ w = g.b)

/-- Every wire that a gate reads or an output names is written as an input or as the output of a
gate. -/
structure Written (c : Circuit) : Prop where
  operand : ∀ w, IsRead c w → w ∈ (sources c).map Prod.fst ∨ c.isGateOutput w = true
  output : ∀ l ∈ c.outputs, l.wire ∈ (sources c).map Prod.fst ∨ c.isGateOutput l.wire = true

namespace WellFormed

theorem mem_driven (h : WellFormed c) {w : Nat} :
    w ∈ c.gateList.map Gate.out ↔ c.isGateOutput w = true := by
  rw [List.mem_map, isGateOutput_eq, Option.isSome_iff_exists]
  constructor
  · rintro ⟨g, hg, rfl⟩
    exact ⟨g, h.mem_gateList.mp hg⟩
  · rintro ⟨g, hg⟩
    exact ⟨g, Circuit.mem_gateList.mpr ⟨w, hg⟩, h.gate_filed w g hg⟩

/-- What is written is a consistent netlist if it leaves nothing out. -/
theorem consistent (h : WellFormed c) (hw : Written c) : Consistent (statements c) where
  admissible := by
    rw [statements_eq, admissibleAfter_append, admissibleAfter_append]
    refine ⟨⟨admissible_inputs ?_ (by simp [declared]), admissible_outputs h.output_distinct ?_⟩,
      admissible_gates h.ascending (fun g hg => ⟨?_, fun hmem => ?_⟩) fun g hg v hv => ?_⟩
    · rw [sourceLiterals_wires]
      exact sources_nodup c
    · simp [Netlist.outputs, Statement.output?]
    · simp [driven, Netlist.gates, Statement.gate?]
    · have hsource : g.out ∈ (sources c).map Prod.fst := by
        rw [← sourceLiterals_wires]
        simpa [Netlist.inputs, Statement.input?] using hmem
      have hdriven := h.mem_driven.mp (List.mem_map_of_mem hg)
      rw [not_driven_of_source hsource] at hdriven
      cases hdriven
    · rcases hw.operand v ⟨_, g, h.mem_gateList.mp hg, hv⟩ with hsource | hdriven
      · left
        rw [← sourceLiterals_wires] at hsource
        simpa [declared, Statement.wire, or_assoc] using Or.inl hsource
      · exact .inr (List.mem_map.mp (h.mem_driven.mpr hdriven))
  polarity w := changes_readings (readings_statements w)
  outputs_driven l seed hs := by
    rw [inputs_statements, driven_statements, h.mem_driven]
    have hl : l ∈ c.outputs := by
      rw [← outputs_statements]
      exact mem_outputs.mpr ⟨seed, hs⟩
    rcases hw.output l hl with hsource | hdriven
    · exact .inl hsource
    · exact .inr (.inl hdriven)
  ascending g hg k hk hr := by
    rw [gates_statements] at hg hk
    exact Nat.not_lt.mpr (Nat.le_of_lt (h.ascending.reads g hg k hk hr))

/-- A consistent netlist leaves nothing out: what a gate reads is declared, and an output that is
declared has a driver. -/
theorem written (h : WellFormed c) (hs : Consistent (statements c)) : Written c := by
  have houtput : ∀ l ∈ c.outputs,
      l.wire ∈ (sources c).map Prod.fst ∨ c.isGateOutput l.wire = true := by
    intro l hl
    have hmem := hs.outputs_driven l none (mem_statements.mpr (.inr (.inl ⟨l, hl, rfl⟩)))
    rw [inputs_statements, driven_statements, h.mem_driven] at hmem
    simpa using hmem
  refine ⟨?_, houtput⟩
  rintro w ⟨v, g, hg, hw⟩
  have hgate : g ∈ Netlist.gates (statements c) := by
    rw [gates_statements]
    exact Circuit.mem_gateList.mpr ⟨v, hg⟩
  obtain ⟨⟨ha, -⟩, hb, -⟩ := gate_reads hs.admissible hgate
  have hdeclared : w ∈ declared (statements c) := by
    rcases hw with rfl | rfl
    · exact ha
    · exact hb
  rcases mem_declared_statements.mp hdeclared with hsource | hout | hdriven
  · exact .inl hsource
  · obtain ⟨l, hl, rfl⟩ := List.mem_map.mp hout
    exact houtput l hl
  · exact .inr (h.mem_driven.mp hdriven)

end WellFormed

/-- The circuit was evaluated and delivers its outputs. -/
structure Evaluated (c : Circuit) : Prop extends WellFormed c where
  gate_value : ∀ w g, c.gate? w = some g → ∃ a b, c.wires.seen? g.a = some a ∧
    c.wires.seen? g.b = some b ∧ c.wires.raw? w = some (g.eval a b)
  output_value : ∀ l ∈ c.outputs, c.wires.raw? l.wire ≠ none

namespace Evaluated

theorem written (h : Evaluated c) : Written c where
  operand := by
    rintro w ⟨v, g, hg, hw⟩
    obtain ⟨a, b, ha, hb, -⟩ := h.gate_value v g hg
    rcases hw with rfl | rfl
    · exact source_or_driven (WireStore.raw?_of_seen? ha)
    · exact source_or_driven (WireStore.raw?_of_seen? hb)
  output l hl := source_or_driven (h.output_value l hl)

theorem consistent (h : Evaluated c) : Consistent (statements c) :=
  h.toWellFormed.consistent h.written

end Evaluated

end Circuit

end GateNet
