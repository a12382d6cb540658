import GateNet.Proofs.Gates
import GateNet.Proofs.Netlist.Admissible
import GateNet.Proofs.Netlist.Declaring

/-!
Reading a netlist. Each statement is declared exactly if it is admissible after those before it and
turns no wire for the second time, and then the circuit is the one that the statements so far describe.
So by induction on the statements a text is accepted exactly if its statements are consistent.
-/

namespace GateNet

open Circuit Netlist

variable {ss : List Statement} {c d : Circuit}

namespace Netlist.Describes

theorem contains_iff (h : Describes ss c) {w : Nat} :
    c.wires.contains w = true ↔ w ∈ declared ss := by
  rw [WireStore.contains_eq, h.polarity?]
  split <;> simp [*]

theorem isGateOutput_iff (h : Describes ss c) {w : Nat} :
    c.isGateOutput w = true ↔ w ∈ driven ss := by
  rw [isGateOutput_eq, h.gate?, List.find?_isSome, driven, List.mem_map]
  simp

/-- A gate line is filed under the wire that it drives. -/
theorem gate?_out (h : Describes ss c) (adm : AdmissibleAfter [] ss) {g : Gate}
    (hg : g ∈ gates ss) : c.gate? g.out = some g := by
  -- the gate that the search finds first drives the same wire, so it is this one
  obtain ⟨g', hg'⟩ : ∃ g', (gates ss).find? (·.out == g.out) = some g' := by
    rw [← Option.isSome_iff_exists, List.find?_isSome]
    exact ⟨g, hg, by simp⟩
  have hout : g'.out = g.out := by simpa using List.find?_some hg'
  rw [h.gate?, hg',
    List.inj_on_of_nodup_map (driven_nodup adm) (List.mem_of_find?_eq_some hg') hg hout]

/-- The gates of the circuit are those of the gate lines. -/
theorem mem_gateList (h : Describes ss c) (adm : AdmissibleAfter [] ss) {g : Gate} :
    g ∈ c.gateList ↔ g ∈ gates ss := by
  rw [Circuit.mem_gateList]
  constructor
  · rintro ⟨w, hw⟩
    rw [h.gate?] at hw
    exact List.mem_of_find?_eq_some hw
  · exact fun hg => ⟨g.out, h.gate?_out adm hg⟩

/-- The wire of an output is declared, so it is found when its driver is looked for. -/
theorem checkOutput_eq (h : Describes ss c) {l : Literal} (hl : l ∈ Netlist.outputs ss) :
    c.checkOutput l =
      if l.wire ∈ inputs ss ∨ l.wire ∈ driven ss ∨ seed? ss l.wire ≠ none then .ok ()
      else .error (.undrivenOutput l.wire) := by
  have hdriven : (c.isInput l.wire || c.isGateOutput l.wire || (c.wires.raw? l.wire).isSome) = true ↔
      l.wire ∈ inputs ss ∨ l.wire ∈ driven ss ∨ seed? ss l.wire ≠ none := by
    rw [h.raw?, Bool.or_eq_true, Bool.or_eq_true, h.isInput, h.isGateOutput_iff, or_assoc,
      Option.isSome_iff_ne_none]
  rw [checkOutput, isDriven_of_contains (h.contains_iff.mpr (mem_outputs_declared hl))]
  by_cases hd : l.wire ∈ inputs ss ∨ l.wire ∈ driven ss ∨ seed? ss l.wire ≠ none
  · rw [hdriven.mpr hd, if_pos hd]
    rfl
  · rw [Bool.not_eq_true _ |>.mp (mt hdriven.mp hd), if_neg hd]
    rfl

theorem checkOutput_ok_iff (h : Describes ss c) {l : Literal} (hl : l ∈ Netlist.outputs ss) {u : Unit} :
    c.checkOutput l = .ok u ↔ l.wire ∈ inputs ss ∨ l.wire ∈ driven ss ∨ seed? ss l.wire ≠ none := by
  rw [h.checkOutput_eq hl]
  split
  · exact iff_of_true rfl ‹_›
  · exact iff_of_false nofun ‹_›

theorem checkOrder_eq (h : Describes ss c) (g : Gate) (w : Nat) :
    c.checkOrder g w = if w ∈ driven ss ∧ g.out < w then .error (.outOfOrder g.out w) else .ok () := by
  simp only [checkOrder, h.isGateOutput_iff]

theorem checkGate_ok_iff (h : Describes ss c) {g : Gate} {u : Unit} :
    c.checkGate g = .ok u ↔ ∀ k ∈ gates ss, k.out = g.a ∨ k.out = g.b → ¬ g.out < k.out := by
  have hread : ∀ w, c.checkOrder g w = .ok () ↔ (w ∈ driven ss → ¬ g.out < w) := fun w => by
    rw [h.checkOrder_eq, ← not_and]
    split <;> simp [*]
  rw [checkGate, forM_ok_iff]
  simp only [List.mem_cons, List.not_mem_nil, or_false, hread]
  constructor
  · exact fun hw k hk hr => hw k.out hr (List.mem_map_of_mem hk)
  · intro hk w hr hw
    obtain ⟨k, hk', rfl⟩ := List.mem_map.mp hw
    exact hk k hk' hr

/-- What is checked at the end are the last two conditions of consistency. -/
theorem checkComplete_ok_iff (h : Describes ss c) (adm : AdmissibleAfter [] ss) {u : Unit} :
    c.checkComplete = .ok u ↔
      (∀ l seed, Statement.output l seed ∈ ss →
        l.wire ∈ inputs ss ∨ l.wire ∈ driven ss ∨ seed ≠ none) ∧
      ∀ g ∈ gates ss, ∀ k ∈ gates ss, k.out = g.a ∨ k.out = g.b → ¬ g.out < k.out := by
  have houtput : ∀ l seed, Statement.output l seed ∈ ss → (c.checkOutput l = .ok () ↔
      l.wire ∈ inputs ss ∨ l.wire ∈ driven ss ∨ seed ≠ none) := fun l seed hs => by
    rw [h.checkOutput_ok_iff (mem_outputs.mpr ⟨seed, hs⟩), seed?_output adm hs]
  rw [checkComplete, bind_ok_iff, h.outputs]
  simp only [forM_ok_iff, h.checkGate_ok_iff, h.mem_gateList adm, exists_const]
  refine and_congr_left' ⟨fun hall l seed hs => ?_, fun hall l hl => ?_⟩
  · exact (houtput l seed hs).mp (hall l (mem_outputs.mpr ⟨seed, hs⟩))
  · obtain ⟨seed, hs⟩ := mem_outputs.mp hl
    exact (houtput l seed hs).mpr (hall l seed hs)

end Netlist.Describes

namespace Netlist

/-- The statements, declared one after the other, lead to the circuit. -/
structure Reads (ss : List Statement) (c : Circuit) : Prop extends Describes ss c where
  steady : ∀ w, changes (polarities ss w) ≤ 1
  reads_declared : ∀ l ∈ ss.flatMap Statement.reads, l.wire ∈ declared ss

namespace Reads

/-- Registering a wire in the plain polarity is what its first declaration by an output or a gate
comes to. -/
theorem polarity?_ensure (h : Reads ss c) (v w : Nat) :
    (c.wires.ensure v).polarity? w =
      if w ∈ declared ss ++ [v] then some (.ofHistory (polarities ss w)) else none := by
  rw [WireStore.polarity?_ensure, h.polarity?, h.polarity?]
  by_cases hw : v = w
  · subst hw
    by_cases hd : v ∈ declared ss
    · simp [hd]
    · have hplain : polarities ss v = [false] := by
        rw [polarities, declaredInverted_of_not_mem hd, readings_eq_nil h.reads_declared hd]
      simp [hd, hplain, Polarity.ofHistory, changes]
  · have hw' : w ≠ v := fun e => hw e.symm
    simp [hw, hw']

theorem shows_ensure (h : Reads ss c) (v : Nat) : Shows (c.wires.ensure v) (polarities ss) where
  nonempty w := by simp [polarities]
  steady := h.steady
  polarity w p hp := by
    rw [h.polarity?_ensure] at hp
    split at hp
    · exact (Option.some.inj hp).symm
    · cases hp

/-- Every statement declared so far stays declared, so what gates read is declared. -/
theorem reads_declared_concat (h : Reads ss c) {s : Statement} (hs : ∀ l ∈ s.reads, l.wire ∈ declared ss) :
    ∀ l ∈ (ss ++ [s]).flatMap Statement.reads, l.wire ∈ declared (ss ++ [s]) := by
  intro l hl
  rw [List.flatMap_append, List.mem_append] at hl
  rw [declared, List.map_append, List.mem_append]
  rcases hl with hl | hl
  · exact .inl (h.reads_declared l hl)
  · exact .inl (hs l (by simpa using hl))

theorem empty : Reads [] { origin := .netlist } where
  origin := rfl
  raw? w := rfl
  polarity? w := rfl
  isInput w := by simp [isInput, inputs]
  outputs := rfl
  isOutput w := by simp [Circuit.isOutput, outputs]
  gate? w := rfl
  tally f := by simp [GateTally.count, gates]
  complements := rfl
  inputComplements := rfl
  nextWire := rfl
  steady w := by simp [polarities, readings, changes]
  reads_declared := by simp

/-! ### Inputs -/

theorem input (h : Reads ss c) {l : Literal} (hl : l.wire ∉ declared ss) :
    Reads (ss ++ [.input l]) { c with
      wires := c.wires.put l.wire ⟨none, ⟨l.inverted, false⟩⟩
      inputs := c.inputs.insert l.wire } where
  origin := h.origin
  raw? w := by
    have hnone : (Statement.input l).seedFor? w = none := rfl
    rw [seed?_concat, hnone, Option.or_none, ← h.raw?, WireStore.raw?_put]
    split
    · rename_i hw
      rw [← hw, WireStore.raw?_of_not_contains]
      rw [← Bool.not_eq_true, h.contains_iff]
      exact hl
    · rfl
  polarity? w := by
    rw [polarities_concat_input h.reads_declared hl, WireStore.polarity?_put, h.polarity?]
    by_cases hw : l.wire = w
    · simp [hw, Statement.wire, Polarity.ofHistory, changes]
    · have hw' : w ≠ l.wire := fun e => hw e.symm
      simp [hw, hw', Statement.wire]
  isInput w := by
    have hi := h.isInput w
    rw [isInput] at hi
    simp only [isInput, Std.ExtTreeSet.contains_insert, Bool.or_eq_true, hi, inputs_concat,
      Statement.input?, Option.toList_some, List.mem_append, List.mem_singleton, beq_iff_eq,
      Nat.compare_eq_eq]
    exact ⟨fun hw => hw.symm.imp_right Eq.symm, fun hw => hw.symm.imp_left Eq.symm⟩
  outputs := h.outputs.trans (by simp [Statement.output?])
  isOutput w := (h.isOutput w).trans (by simp [Statement.output?])
  gate? w := (h.gate? w).trans (by simp [Statement.gate?])
  tally f := (h.tally f).trans (by simp [Statement.gate?])
  complements := h.complements
  inputComplements := h.inputComplements
  nextWire := h.nextWire
  steady w := by
    rw [polarities_concat_input h.reads_declared hl]
    split
    · simp [changes]
    · exact h.steady w
  reads_declared := h.reads_declared_concat (by simp [Statement.reads])

/-! ### Outputs -/

theorem output (h : Reads ss c) {l : Literal} {seed : Option Bool}
    (hl : l.wire ∉ (outputs ss).map Literal.wire) :
    Reads (ss ++ [.output l seed]) ({ c with wires := seeded c.wires l.wire seed }.appendOutput l) where
  origin := h.origin
  raw? w := by
    have hens : (c.wires.ensure l.wire).contains l.wire = true :=
      (WireStore.contains_ensure ..).mpr (.inl rfl)
    have hseed : (Statement.output l seed).seedFor? w = if l.wire = w then seed else none := rfl
    show (seeded c.wires l.wire seed).raw? w = _
    rw [seed?_concat, hseed]
    by_cases hw : l.wire = w
    · subst hw
      rw [seed?_eq_none hl, if_pos rfl, Option.none_or]
      cases seed with
      | none => rw [seeded, WireStore.raw?_ensure, h.raw?, seed?_eq_none hl]
      | some value => exact WireStore.raw?_write_self hens value
    · rw [if_neg hw, Option.or_none, ← h.raw?]
      cases seed with
      | none => rw [seeded, WireStore.raw?_ensure]
      | some value => rw [seeded, WireStore.raw?_write_of_ne hw, WireStore.raw?_ensure]
  polarity? w := by
    have hens : (seeded c.wires l.wire seed).polarity? w = (c.wires.ensure l.wire).polarity? w := by
      cases seed with
      | none => rfl
      | some value => exact WireStore.polarity?_write ..
    have hnone : readings [.output l seed] w = [] := rfl
    show (seeded c.wires l.wire seed).polarity? w = _
    rw [polarities_concat rfl, hnone, List.append_nil, hens, h.polarity?_ensure]
    simp [Statement.wire]
  isInput w := (h.isInput w).trans (by simp [Statement.input?])
  outputs := by simp [appendOutput, h.outputs, Statement.output?]
  isOutput w := by
    rw [isOutput_appendOutput, outputs_concat, List.map_append, List.mem_append]
    exact or_congr (h.isOutput w) (by simp [Statement.output?])
  gate? w := (h.gate? w).trans (by simp [Statement.gate?])
  tally f := (h.tally f).trans (by simp [Statement.gate?])
  complements := h.complements
  inputComplements := h.inputComplements
  nextWire := h.nextWire
  steady w := by
    have hnone : readings [.output l seed] w = [] := rfl
    rw [polarities_concat rfl, hnone, List.append_nil]
    exact h.steady w
  reads_declared := h.reads_declared_concat (by simp [Statement.reads])

/-! ### Gates -/

theorem gate (h : Reads ss c) {f : GateFunction} {out : Nat} {a b : Literal}
    (adm : Admissible ss (.gate f out a b))
    (steady : ∀ w, changes (polarities (ss ++ [.gate f out a b]) w) ≤ 1) :
    Reads (ss ++ [.gate f out a b]) { c with
      wires := readBoth (c.wires.ensure out) (polarities ss) a b
      gates := c.gates.insert out ⟨f, a.wire, b.wire, out⟩
      tally := c.tally.add f } where
  origin := h.origin
  raw? w := by
    have hnone : (Statement.gate f out a b).seedFor? w = none := rfl
    rw [raw?_readBoth, WireStore.raw?_ensure, seed?_concat, hnone, Option.or_none, h.raw?]
  polarity? w := by
    obtain ⟨-, ⟨ha, -⟩, ⟨hb, -⟩⟩ := adm
    have hc : ∀ v ∈ declared ss, (c.wires.ensure out).contains v = true := fun v hv =>
      (WireStore.contains_ensure ..).mpr (.inr (h.contains_iff.mpr hv))
    have hs : ∀ w, changes (readAfter (readAfter (polarities ss) a) b w) ≤ 1 := fun w => by
      rw [← polarities_concat_gate]; exact steady w
    have both := (h.shows_ensure out).readBoth (hc _ ha) (hc _ hb) hs
    split
    · rename_i hw
      rw [both.polarity?_eq, polarities_concat_gate]
      rw [contains_readBoth, WireStore.contains_ensure, h.contains_iff]
      simpa [Statement.wire, or_comm] using hw
    · rename_i hw
      apply WireStore.polarity?_of_not_contains
      rw [← Bool.not_eq_true, contains_readBoth, WireStore.contains_ensure, h.contains_iff]
      simpa [Statement.wire, or_comm] using hw
  isInput w := (h.isInput w).trans (by simp [Statement.input?])
  outputs := h.outputs.trans (by simp [Statement.output?])
  isOutput w := (h.isOutput w).trans (by simp [Statement.output?])
  gate? w := by
    have hg := h.gate? w
    rw [gate?] at hg
    rw [gate?, Std.ExtTreeMap.getElem?_insert, gates_concat, List.find?_append, ← hg]
    by_cases hw : out = w
    · have hnone : c.gates[w]? = none := by
        rw [hg, List.find?_eq_none]
        intro g hg hout
        exact adm.1.1 (List.mem_map.mpr ⟨g, hg, by rw [hw]; simpa using hout⟩)
      simp [hw, hnone, Statement.gate?]
    · simp [hw, Statement.gate?]
  tally g := by
    rw [GateTally.count_add, h.tally, gates_concat, List.countP_append]
    by_cases hf : f = g <;> simp [hf, Statement.gate?]
  complements := h.complements
  inputComplements := h.inputComplements
  nextWire := h.nextWire
  steady := steady
  reads_declared := h.reads_declared_concat adm.reads_declared

theorem declareGate_ok_iff (h : Reads ss c) {f : GateFunction} {out : Nat} {a b : Literal} :
    c.declareGate f out a b = .ok d ↔
      Admissible ss (.gate f out a b) ∧
      (∀ w, changes (polarities (ss ++ [.gate f out a b]) w) ≤ 1) ∧
        d = { c with
          wires := readBoth (c.wires.ensure out) (polarities ss) a b
          gates := c.gates.insert out ⟨f, a.wire, b.wire, out⟩
          tally := c.tally.add f } := by
  have hc : ∀ {v : Nat}, c.wires.contains v = true → (c.wires.ensure out).contains v = true :=
    fun hv => (WireStore.contains_ensure ..).mpr (.inr hv)
  have hboth := fun d => (h.shows_ensure out).matchBoth_ok_iff (a := a) (b := b) (d := d)
    (c := { c with wires := c.wires.ensure out })
  simp only [Circuit.declareGate_ok_iff, Admissible, polarities_concat_gate, ← h.contains_iff,
    ← h.isGateOutput_iff, ← h.isInput, Bool.not_eq_true]
  constructor
  · rintro ⟨free, ⟨ha, hca⟩, ⟨hb, hcb⟩, d₁, d₂, h₁, h₂, rfl⟩
    obtain ⟨hs, rfl⟩ := (hboth _ (hc hca) (hc hcb)).mp ⟨d₁, h₁, h₂⟩
    exact ⟨⟨free, ⟨hca, ha⟩, hcb, hb⟩, hs, rfl⟩
  · rintro ⟨⟨free, ⟨hca, ha⟩, hcb, hb⟩, hs, rfl⟩
    obtain ⟨d₁, h₁, h₂⟩ := (hboth _ (hc hca) (hc hcb)).mpr ⟨hs, rfl⟩
    exact ⟨free, ⟨ha, hca⟩, ⟨hb, hcb⟩, d₁, _, h₁, h₂, rfl⟩

/-! ### One statement and many -/

/-- A statement that can be declared is admissible, and leads to the circuit with it. -/
theorem declare (h : Reads ss c) {s : Statement} (hd : c.declare s = .ok d) :
    Admissible ss s ∧ Reads (ss ++ [s]) d := by
  cases s with
  | input l =>
    obtain ⟨hc, rfl⟩ := declareInput_ok_iff.mp hd
    have hl : l.wire ∉ declared ss := by rw [← h.contains_iff, hc]; simp
    exact ⟨hl, h.input hl⟩
  | output l seed =>
    obtain ⟨ho, rfl⟩ := declareOutput_ok_iff.mp hd
    have hl : l.wire ∉ (outputs ss).map Literal.wire := by rw [← h.isOutput, ho]; simp
    exact ⟨hl, h.output hl⟩
  | gate f out a b =>
    obtain ⟨adm, hs, rfl⟩ := h.declareGate_ok_iff.mp hd
    exact ⟨adm, h.gate adm hs⟩

/-- An admissible statement can be declared unless it turns a wire for the second time. -/
theorem can_declare (h : Reads ss c) {s : Statement} (adm : Admissible ss s)
    (hs : ∀ w, changes (polarities (ss ++ [s]) w) ≤ 1) : ∃ d, c.declare s = .ok d := by
  cases s with
  | input l =>
    refine ⟨_, declareInput_ok_iff.mpr ⟨?_, rfl⟩⟩
    rw [← Bool.not_eq_true, h.contains_iff]
    exact adm
  | output l seed =>
    refine ⟨_, declareOutput_ok_iff.mpr ⟨?_, rfl⟩⟩
    rw [← Bool.not_eq_true, h.isOutput]
    exact adm
  | gate f out a b => exact ⟨_, h.declareGate_ok_iff.mpr ⟨adm, hs, rfl⟩⟩

theorem declareAll {before : List Statement} (h : Reads before c)
    (hd : ss.foldlM Circuit.declare c = .ok d) :
    AdmissibleAfter before ss ∧ Reads (before ++ ss) d := by
  induction ss generalizing before c with
  | nil =>
    cases hd
    exact ⟨trivial, by rwa [List.append_nil]⟩
  | cons s rest ih =>
    obtain ⟨c', hs, hrest⟩ := foldlM_cons_ok_iff.mp hd
    obtain ⟨adm, h'⟩ := h.declare hs
    obtain ⟨adms, hreads⟩ := ih h' hrest
    exact ⟨⟨adm, adms⟩, by rwa [List.append_assoc] at hreads⟩

theorem can_declareAll {before : List Statement} (h : Reads before c)
    (adm : AdmissibleAfter before ss) (hs : ∀ w, changes (polarities (before ++ ss) w) ≤ 1) :
    ∃ d, ss.foldlM Circuit.declare c = .ok d := by
  induction ss generalizing before c with
  | nil => exact ⟨c, rfl⟩
  | cons s rest ih =>
    rw [List.append_cons] at hs
    have hnow : ∀ w, changes (polarities (before ++ [s]) w) ≤ 1 := fun w =>
      Nat.le_trans (changes_polarities_le (h.reads_declared_concat adm.1.reads_declared)) (hs w)
    obtain ⟨c', hc'⟩ := h.can_declare adm.1 hnow
    obtain ⟨d, hd⟩ := ih (h.declare hc').2 adm.2 hs
    exact ⟨d, foldlM_cons_ok_iff.mpr ⟨c', hc', hd⟩⟩

end Reads

/-! ### A whole text -/

theorem declareLine_ok_iff {line : List Char} :
    declareLine c line = .ok d ↔
      ∃ found, Statement.ofLine line = .ok found ∧ found.toList.foldlM Circuit.declare c = .ok d := by
  rw [declareLine, bind_ok_iff]
  constructor
  · rintro ⟨_ | s, hs, h⟩
    · exact ⟨none, hs, h⟩
    · exact ⟨some s, hs, foldlM_cons_ok_iff.mpr ⟨d, h, rfl⟩⟩
  · rintro ⟨_ | s, hs, h⟩
    · exact ⟨none, hs, h⟩
    · obtain ⟨c', hc', hd⟩ := foldlM_cons_ok_iff.mp h
      cases hd
      exact ⟨some s, hs, hc'⟩

/-- Reading line by line is reading all statements first and then declaring them. -/
theorem readLines_ok_iff {lines : List (List Char)} {n : Nat} :
    (lines.zipIdx n).foldlM readLine c = .ok d ↔
      ∃ found, lines.mapM Statement.ofLine = .ok found ∧
        (found.filterMap id).foldlM Circuit.declare c = .ok d := by
  induction lines generalizing c n with
  | nil =>
    constructor
    · intro h
      cases h
      exact ⟨[], rfl, rfl⟩
    · rintro ⟨found, hf, h⟩
      cases hf
      cases h
      rfl
  | cons line rest ih =>
    rw [List.zipIdx_cons, foldlM_cons_ok_iff]
    simp only [readLine, mapError_ok_iff, declareLine_ok_iff, ih, mapM_cons_ok_iff]
    constructor
    · rintro ⟨c', ⟨s, hs, hc'⟩, found, hf, hd⟩
      refine ⟨s :: found, ⟨s, found, hs, hf, rfl⟩, ?_⟩
      cases s with
      | none => cases hc'; exact hd
      | some s =>
        obtain ⟨c'', hs', he⟩ := foldlM_cons_ok_iff.mp hc'
        cases he
        exact foldlM_cons_ok_iff.mpr ⟨_, hs', hd⟩
    · rintro ⟨-, ⟨s, found, hs, hf, rfl⟩, hd⟩
      cases s with
      | none => exact ⟨c, ⟨none, hs, rfl⟩, found, hf, hd⟩
      | some s =>
        obtain ⟨c', hc', hd⟩ := foldlM_cons_ok_iff.mp hd
        exact ⟨c', ⟨some s, hs, foldlM_cons_ok_iff.mpr ⟨c', hc', rfl⟩⟩, found, hf, hd⟩

theorem statementsOf_ok_iff {text : String} :
    statementsOf text = .ok ss ↔
      ∃ found, (Text.lines text.toList).mapM Statement.ofLine = .ok found ∧
        found.filterMap id = ss := by
  simp only [statementsOf, bind_ok_iff, pure_ok_iff]

/-- A text is accepted if its statements can be declared and leave nothing open. -/
theorem parse_ok_iff {text : String} :
    parse text = .ok c ↔
      ∃ ss, statementsOf text = .ok ss ∧
        ss.foldlM Circuit.declare { origin := .netlist } = .ok c ∧ c.checkComplete = .ok () := by
  simp only [parse, bind_ok_iff, mapError_ok_iff, pure_ok_iff, statementsOf_ok_iff]
  constructor
  · rintro ⟨c, h, ⟨⟩, hc, rfl⟩
    obtain ⟨found, hf, hd⟩ := readLines_ok_iff.mp h
    exact ⟨_, ⟨found, hf, rfl⟩, hd, hc⟩
  · rintro ⟨-, ⟨found, hf, rfl⟩, hd, hc⟩
    exact ⟨c, readLines_ok_iff.mpr ⟨found, hf, hd⟩, (), hc, rfl⟩

/-- An accepted text is one of consistent statements, and its circuit is the one they describe. -/
theorem parse_ok {text : String} (h : parse text = .ok c) :
    ∃ ss, statementsOf text = .ok ss ∧ Consistent ss ∧ Describes ss c := by
  obtain ⟨ss, hss, hd, hc⟩ := parse_ok_iff.mp h
  obtain ⟨adm, hreads⟩ := Reads.empty.declareAll hd
  rw [List.nil_append] at hreads
  obtain ⟨hout, hasc⟩ := (hreads.checkComplete_ok_iff adm).mp hc
  exact ⟨ss, hss, ⟨adm, hreads.steady, hout, hasc⟩, hreads.toDescribes⟩

/-- Every text of consistent statements is accepted. -/
theorem can_parse {text : String} (hss : statementsOf text = .ok ss) (h : Consistent ss) :
    ∃ c, parse text = .ok c := by
  obtain ⟨c, hd⟩ := Reads.empty.can_declareAll h.admissible h.polarity
  obtain ⟨adm, hreads⟩ := Reads.empty.declareAll hd
  rw [List.nil_append] at hreads
  exact ⟨c, parse_ok_iff.mpr ⟨ss, hss, hd,
    (hreads.checkComplete_ok_iff adm).mpr ⟨h.outputs_driven, h.ascending⟩⟩⟩

/-- A netlist is accepted exactly if all its lines can be read and its statements are consistent; the
circuit is then the one that the statements describe. -/
theorem parse_accepts_consistent (text : String) :
    ((∃ c, parse text = .ok c) ↔ ∃ ss, statementsOf text = .ok ss ∧ Consistent ss) ∧
      ∀ c ss, parse text = .ok c → statementsOf text = .ok ss → Describes ss c := by
  constructor
  · constructor
    · rintro ⟨c, h⟩
      obtain ⟨ss, hss, hcons, -⟩ := parse_ok h
      exact ⟨ss, hss, hcons⟩
    · rintro ⟨ss, hss, hcons⟩
      exact can_parse hss hcons
  · intro c ss h hss
    obtain ⟨ss', hss', -, hdesc⟩ := parse_ok h
    rw [hss] at hss'
    cases hss'
    exact hdesc

end Netlist

end GateNet
