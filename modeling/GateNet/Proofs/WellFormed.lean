import GateNet.Proofs.Gates
import GateNet.Proofs.Netlist.Reading
import GateNet.Proofs.Reachable

/-!
The order that circuits keep. A gate reads registered wires, and a wire that a gate drives is read by
gates of later outputs only; inputs and their complements are driven by no gate. A netlist has this
order because it is checked at the end, a built circuit because every wire is issued after those that
its driver reads. So one pass over the gates meets each wire in its final state.
-/

namespace GateNet.Circuit

open Netlist

/-- The structure that every circuit has. -/
structure WellFormed (c : Circuit) : Prop where
  gate_filed : ∀ w g, c.gate? w = some g → g.out = w
  gate_registered : ∀ w g, c.gate? w = some g →
    c.wires.contains w = true ∧ c.wires.contains g.a = true ∧ c.wires.contains g.b = true
  /-- A gate that reads another one drives a later wire. -/
  gate_order : ∀ w g, c.gate? w = some g → ∀ v, v = g.a ∨ v = g.b →
    c.isGateOutput v = true → v < w
  input_registered : ∀ w, c.isInput w = true → c.wires.contains w = true
  input_undriven : ∀ w, c.isInput w = true → c.isGateOutput w = false
  output_registered : ∀ l ∈ c.outputs, c.wires.contains l.wire = true
  output_distinct : (c.outputs.map Literal.wire).Nodup
  /-- The set of the wires of the outputs has no other wires. -/
  output_noted : ∀ w, c.isOutput w = true ↔ w ∈ c.outputs.map Literal.wire
  complement_of_input : ∀ p ∈ c.inputComplements, c.isInput p.1 = true
  complement_registered : ∀ p ∈ c.inputComplements, c.wires.contains p.2 = true
  /-- The complement of an input is driven by nothing but the input. -/
  complement_undriven : ∀ p ∈ c.inputComplements,
    c.isInput p.2 = false ∧ c.isGateOutput p.2 = false
  complement_distinct : (c.inputComplements.map Prod.snd).Nodup
  /-- A circuit that can be built up issues its wires in ascending order. -/
  registered_lt : c.origin ≠ .netlist → ∀ w, c.wires.contains w = true → w < c.nextWire

/-- The circuits differ in raw values at most. -/
structure SameStructure (c d : Circuit) : Prop where
  polarity? : ∀ w, d.wires.polarity? w = c.wires.polarity? w
  rest : d = { c with wires := d.wires }

variable {c d : Circuit}

namespace SameStructure

theorem refl (c : Circuit) : SameStructure c c := ⟨fun _ => rfl, rfl⟩

theorem symm (h : SameStructure c d) : SameStructure d c where
  polarity? w := (h.polarity? w).symm
  rest := by rw [h.rest]

theorem trans {e : Circuit} (h : SameStructure c d) (h' : SameStructure d e) :
    SameStructure c e where
  polarity? w := (h'.polarity? w).trans (h.polarity? w)
  rest := by rw [h'.rest, h.rest]

theorem contains (h : SameStructure c d) (w : Nat) : d.wires.contains w = c.wires.contains w := by
  rw [WireStore.contains_eq, WireStore.contains_eq, h.polarity?]

theorem isInput (h : SameStructure c d) (w : Nat) : d.isInput w = c.isInput w := by
  rw [h.rest]
  rfl

theorem isGateOutput (h : SameStructure c d) (w : Nat) : d.isGateOutput w = c.isGateOutput w := by
  rw [h.rest]
  rfl

theorem gateList (h : SameStructure c d) : d.gateList = c.gateList := by
  rw [h.rest]
  rfl

theorem inputComplements (h : SameStructure c d) : d.inputComplements = c.inputComplements := by
  rw [h.rest]

/-- Steps that change raw values alone change nothing else in a run, whether it ends early or not. -/
theorem runSteps {α ε : Type} {step : Circuit → α → Except ε Circuit}
    (h : ∀ a s s', step s a = .ok s' → SameStructure s s') (c : Circuit) (as : List α) :
    SameStructure c (GateNet.runSteps step c as).state := by
  have hsteps : Relation.ReflTransGen SameStructure c (GateNet.runSteps step c as).state :=
    runSteps_reaches (fun a _ s s' hs => .single (h a s s' hs)) c
  generalize (GateNet.runSteps step c as).state = d at hsteps ⊢
  induction hsteps with
  | refl => exact .refl c
  | tail _ step ih => exact ih.trans step

end SameStructure

/-- Loading values changes raw values alone. -/
theorem sameStructure_load (c : Circuit) (text : String) :
    SameStructure c (Values.load c text).state := by
  refine .runSteps (fun line s s' h => ?_) c _
  rcases loadLine_ok_iff.mp h with ⟨-, rfl⟩ | ⟨w, value, -, -, rfl⟩
  · exact .refl _
  · exact ⟨fun v => WireStore.polarity?_write .., rfl⟩

theorem gate?_file (c : Circuit) (g : Gate) (w : Nat) :
    (c.file g).gate? w = if g.out = w then some g else c.gate? w := by
  rw [file, gate?, gate?, Std.ExtTreeMap.getElem?_insert]
  simp

theorem isGateOutput_file (c : Circuit) (g : Gate) (w : Nat) :
    (c.file g).isGateOutput w = true ↔ w = g.out ∨ c.isGateOutput w = true := by
  rw [isGateOutput_eq, gate?_file, isGateOutput_eq]
  by_cases h : g.out = w
  · simp [h]
  · have h' : w ≠ g.out := fun e => h e.symm
    simp [h, h']

theorem isInput_insert (c : Circuit) (w v : Nat) :
    isInput { c with inputs := c.inputs.insert w } v = true ↔ v = w ∨ c.isInput v = true := by
  simp only [isInput, Std.ExtTreeSet.contains_insert, Bool.or_eq_true, beq_iff_eq,
    Nat.compare_eq_eq]
  exact or_congr_left eq_comm

theorem contains_issue (c : Circuit) (inverted : Bool) (value : Option Bool) (w : Nat) :
    (c.issue inverted value).wires.contains w = true ↔
      w = c.nextWire ∨ c.wires.contains w = true :=
  WireStore.contains_put ..

/-- The wire has no part in the circuit yet. -/
structure Idle (c : Circuit) (w : Nat) : Prop where
  not_input : c.isInput w = false
  not_driven : c.isGateOutput w = false
  not_complement : ∀ p ∈ c.inputComplements, p.2 ≠ w
  not_read : ∀ v g, c.gate? v = some g → g.a ≠ w ∧ g.b ≠ w

theorem Idle.pairUp {u : Nat} (h : Idle c u) (w v : Nat) : Idle (c.pairUp w v) u := { h with }

namespace WellFormed

theorem empty : WellFormed {} where
  gate_filed w g h := by simp [gate?] at h
  gate_registered w g h := by simp [gate?] at h
  gate_order w g h := by simp [gate?] at h
  input_registered w h := by simp [isInput] at h
  input_undriven w h := by simp [isInput] at h
  output_registered := by simp
  output_distinct := List.nodup_nil
  output_noted := by simp [isOutput]
  complement_of_input := by simp
  complement_registered := by simp
  complement_undriven := by simp
  complement_distinct := List.nodup_nil
  registered_lt _ w h := by simp [WireStore.contains] at h

/-! ### Building -/

theorem idle (h : WellFormed c) {w : Nat} (hw : c.wires.contains w = false) : Idle c w where
  not_input := by
    rw [← Bool.not_eq_true]
    intro hi
    simp [h.input_registered w hi] at hw
  not_driven := by
    rw [← Bool.not_eq_true, isGateOutput_eq, Option.isSome_iff_exists]
    rintro ⟨g, hg⟩
    simp [(h.gate_registered w g hg).1] at hw
  not_complement p hp he := by
    rw [← he, h.complement_registered p hp] at hw
    cases hw
  not_read v g hg := by
    constructor
    · intro he
      rw [← he, (h.gate_registered v g hg).2.1] at hw
      cases hw
    · intro he
      rw [← he, (h.gate_registered v g hg).2.2] at hw
      cases hw

theorem issue (h : WellFormed c) (can : c.CanIssue) (inverted : Bool) (value : Option Bool) :
    WellFormed (c.issue inverted value) := by
  have keep : ∀ {w : Nat}, c.wires.contains w = true →
      (c.issue inverted value).wires.contains w = true :=
    fun hw => (contains_issue ..).mpr (.inr hw)
  exact {
    gate_filed := h.gate_filed
    gate_registered := fun w g hg =>
      ⟨keep (h.gate_registered w g hg).1, keep (h.gate_registered w g hg).2.1,
        keep (h.gate_registered w g hg).2.2⟩
    gate_order := h.gate_order
    input_registered := fun w hw => keep (h.input_registered w hw)
    input_undriven := h.input_undriven
    output_registered := fun l hl => keep (h.output_registered l hl)
    output_distinct := h.output_distinct
    output_noted := h.output_noted
    complement_of_input := h.complement_of_input
    complement_registered := fun p hp => keep (h.complement_registered p hp)
    complement_undriven := h.complement_undriven
    complement_distinct := h.complement_distinct
    registered_lt := fun _ w hw => by
      rcases (contains_issue ..).mp hw with rfl | hw
      · exact Nat.lt_succ_self _
      · exact Nat.lt_succ_of_lt (h.registered_lt can.origin w hw) }

/-- A registered wire that has no part in the circuit can become an input. -/
theorem addInput (h : WellFormed c) {w : Nat} (hw : c.wires.contains w = true) (idle : Idle c w) :
    WellFormed { c with inputs := c.inputs.insert w } := by
  have hi := isInput_insert c w
  exact { h with
    input_registered := fun v hv => by
      rcases (hi v).mp hv with rfl | hv
      · exact hw
      · exact h.input_registered v hv
    input_undriven := fun v hv => by
      rcases (hi v).mp hv with rfl | hv
      · exact idle.not_driven
      · exact h.input_undriven v hv
    complement_of_input := fun p hp => (hi _).mpr (.inr (h.complement_of_input p hp))
    complement_undriven := fun p hp => by
      refine ⟨?_, (h.complement_undriven p hp).2⟩
      rw [← Bool.not_eq_true, hi, not_or, Bool.not_eq_true]
      exact ⟨idle.not_complement p hp, (h.complement_undriven p hp).1⟩ }

/-- A gate can drive a registered wire that has no part in the circuit and comes after those it
reads. -/
theorem file (h : WellFormed c) {g : Gate} (hg : c.wires.contains g.out = true)
    (idle : Idle c g.out) (ha : c.wires.contains g.a = true) (hb : c.wires.contains g.b = true)
    (hlt : g.a < g.out ∧ g.b < g.out) : WellFormed (c.file g) := by
  have hgate : ∀ {w k}, (c.file g).gate? w = some k → (k = g ∧ w = g.out) ∨ c.gate? w = some k := by
    intro w k hk
    rw [gate?_file] at hk
    split at hk
    · rename_i hw
      exact .inl ⟨(Option.some.inj hk).symm, hw.symm⟩
    · exact .inr hk
  have hundriven : ∀ {w}, w ≠ g.out → c.isGateOutput w = false →
      (c.file g).isGateOutput w = false := by
    intro w hne hw
    rw [← Bool.not_eq_true, isGateOutput_file, not_or, Bool.not_eq_true]
    exact ⟨hne, hw⟩
  exact { h with
    gate_filed := fun w k hk => by
      rcases hgate hk with ⟨rfl, rfl⟩ | hk
      · rfl
      · exact h.gate_filed w k hk
    gate_registered := fun w k hk => by
      rcases hgate hk with ⟨rfl, rfl⟩ | hk
      · exact ⟨hg, ha, hb⟩
      · exact h.gate_registered w k hk
    gate_order := fun w k hk v hv hd => by
      rcases hgate hk with ⟨rfl, rfl⟩ | hk
      · rcases hv with rfl | rfl
        · exact hlt.1
        · exact hlt.2
      · -- no earlier gate reads the wire that is driven from now on
        rcases (isGateOutput_file ..).mp hd with rfl | hd
        · rcases hv with hv | hv
          · exact absurd hv.symm (idle.not_read w k hk).1
          · exact absurd hv.symm (idle.not_read w k hk).2
        · exact h.gate_order w k hk v hv hd
    input_undriven := fun w hw => by
      refine hundriven ?_ (h.input_undriven w hw)
      rintro rfl
      exact Bool.false_ne_true (idle.not_input.symm.trans hw)
    complement_undriven := fun p hp =>
      ⟨(h.complement_undriven p hp).1,
        hundriven (idle.not_complement p hp) (h.complement_undriven p hp).2⟩ }

/-- A registered wire that has no part in the circuit can become the complement of an input. -/
theorem addComplement (h : WellFormed c) {w v : Nat} (hw : c.isInput w = true)
    (hv : c.wires.contains v = true) (idle : Idle c v) :
    WellFormed { c with inputComplements := c.inputComplements ++ [(w, v)] } := by
  have split : ∀ {p}, p ∈ c.inputComplements ++ [(w, v)] → p ∈ c.inputComplements ∨ p = (w, v) :=
    fun hp => (List.mem_append.mp hp).imp_right List.mem_singleton.mp
  exact
  { h with
    complement_of_input := fun p hp => by
      rcases split hp with hp | rfl
      · exact h.complement_of_input p hp
      · exact hw
    complement_registered := fun p hp => by
      rcases split hp with hp | rfl
      · exact h.complement_registered p hp
      · exact hv
    complement_undriven := fun p hp => by
      rcases split hp with hp | rfl
      · exact h.complement_undriven p hp
      · exact ⟨idle.not_input, idle.not_driven⟩
    complement_distinct := by
      rw [List.map_append, List.nodup_append']
      refine ⟨h.complement_distinct, List.nodup_singleton v, ?_⟩
      rw [List.map_singleton, List.disjoint_singleton]
      intro hmem
      obtain ⟨p, hp, he⟩ := List.mem_map.mp hmem
      exact idle.not_complement p hp he }

theorem pairUp (h : WellFormed c) (w v : Nat) : WellFormed (c.pairUp w v) := { h with }

/-- The next wire has no part in the circuit, not even once it is issued. -/
theorem idle_issue (h : WellFormed c) (can : c.CanIssue) (inverted : Bool) (value : Option Bool) :
    Idle (c.issue inverted value) c.nextWire := { h.idle can.unused with }

/-- A gate over registered wires can drive the wire that was just issued. -/
theorem issueDriven (h : WellFormed c) (can : c.CanIssue) (inverted : Bool) (value : Option Bool)
    {g : Gate} (hout : g.out = c.nextWire) (ha : c.wires.contains g.a = true)
    (hb : c.wires.contains g.b = true) : WellFormed ((c.issue inverted value).file g) := by
  apply (h.issue can inverted value).file
  · rw [hout]
    exact (contains_issue ..).mpr (.inl rfl)
  · rw [hout]
    exact h.idle_issue can inverted value
  · exact (contains_issue ..).mpr (.inr ha)
  · exact (contains_issue ..).mpr (.inr hb)
  · rw [hout]
    exact ⟨h.registered_lt can.origin _ ha, h.registered_lt can.origin _ hb⟩

theorem growth (h : WellFormed c) (step : Growth c d) : WellFormed d := by
  have issued : ∀ (inverted : Bool) (value : Option Bool),
      (c.issue inverted value).wires.contains c.nextWire = true :=
    fun _ _ => (contains_issue ..).mpr (.inl rfl)
  cases step with
  | wire value can => exact h.issue can false value
  | input can => exact (h.issue can false none).addInput (issued _ _) (h.idle_issue can _ _)
  | gate function can ha hb free => exact h.issueDriven can false none rfl ha hb
  | inputComplement can memo hc hi =>
    exact ((h.issue can false _).pairUp _ _).addComplement hi (issued _ _)
      ((h.idle_issue can false _).pairUp _ _)
  | gateComplement can memo hc hi hg free =>
    have reg := (h.gate_registered _ _ hg).2
    exact (h.issueDriven can _ _ (g := Gate.withOutput _ _) rfl reg.1 reg.2).pairUp _ _

/-! ### Every change -/

/-- Being well-formed is a matter of structure. -/
theorem sameStructure (h : WellFormed c) (same : SameStructure c d) : WellFormed d := by
  have hc : ∀ w, d.wires.contains w = c.wires.contains w := fun w => by
    rw [WireStore.contains_eq, WireStore.contains_eq, same.polarity?]
  rw [same.rest]
  exact { h with
    gate_registered := fun v g hg => by simpa only [hc] using h.gate_registered v g hg
    input_registered := fun v hv => by simpa only [hc] using h.input_registered v hv
    output_registered := fun l hl => by simpa only [hc] using h.output_registered l hl
    complement_registered := fun p hp => by simpa only [hc] using h.complement_registered p hp
    registered_lt := fun ho v hv => h.registered_lt ho v (by simpa only [hc] using hv) }

theorem change (h : WellFormed c) {written : Nat → Prop} (step : Change written c d) :
    WellFormed d := by
  cases step with
  | growth hn g => exact h.growth g
  | write value hw hc => exact h.sameStructure ⟨fun v => WireStore.polarity?_write .., rfl⟩
  | @output w cell hc ho =>
    exact { h with
      output_registered := fun l hl => by
        rcases List.mem_append.mp hl with hl | hl
        · exact h.output_registered l hl
        · cases List.mem_singleton.mp hl
          exact WireStore.contains_iff.mpr ⟨cell, hc⟩
      output_distinct := by
        rw [appendOutput, List.map_append, List.map_singleton, List.nodup_append']
        refine ⟨h.output_distinct, List.nodup_singleton w, ?_⟩
        rw [List.disjoint_singleton, ← h.output_noted, ho]
        exact Bool.false_ne_true
      output_noted := fun v => by
        rw [isOutput_appendOutput, h.output_noted, appendOutput, List.map_append, List.mem_append]
        exact or_congr_right List.mem_singleton.symm }

/-! ### Netlists -/

theorem ofNetlist {ss : List Statement} (h : Describes ss c) (hs : Consistent ss) :
    WellFormed c := by
  have hgate : ∀ {w g}, c.gate? w = some g → g ∈ Netlist.gates ss ∧ g.out = w := by
    intro w g hg
    rw [h.gate?] at hg
    exact ⟨List.mem_of_find?_eq_some hg, by simpa using List.find?_some hg⟩
  have hreg : ∀ {w}, w ∈ declared ss → c.wires.contains w = true := h.contains_iff.mpr
  exact {
    gate_filed := fun w g hg => (hgate hg).2
    gate_registered := fun w g hg => by
      obtain ⟨hmem, rfl⟩ := hgate hg
      obtain ⟨⟨ha, -⟩, hb, -⟩ := gate_reads hs.admissible hmem
      exact ⟨hreg (mem_driven_declared (List.mem_map_of_mem hmem)), hreg ha, hreg hb⟩
    gate_order := fun w g hg v hv hd => by
      obtain ⟨hmem, rfl⟩ := hgate hg
      obtain ⟨⟨-, ha⟩, -, hb⟩ := gate_reads hs.admissible hmem
      obtain ⟨k, hk, rfl⟩ := List.mem_map.mp (h.isGateOutput_iff.mp hd)
      have hle := hs.ascending g hmem k hk hv
      rcases hv with hv | hv
      · omega
      · omega
    input_registered := fun w hw => hreg (mem_inputs_declared ((h.isInput w).mp hw))
    input_undriven := fun w hw => by
      rw [← Bool.not_eq_true, h.isGateOutput_iff]
      exact not_driven_of_input hs.admissible ((h.isInput w).mp hw)
    output_registered := fun l hl => by
      rw [h.outputs] at hl
      exact hreg (mem_outputs_declared hl)
    output_distinct := by
      rw [h.outputs]
      exact outputs_nodup hs.admissible
    output_noted := fun w => by rw [h.outputs, h.isOutput]
    complement_of_input := by simp [h.inputComplements]
    complement_registered := by simp [h.inputComplements]
    complement_undriven := by simp [h.inputComplements]
    complement_distinct := by simp [h.inputComplements]
    registered_lt := fun ho => absurd h.origin ho }

end WellFormed

theorem Reachable.wellFormed (h : Reachable c) : WellFormed c :=
  h.invariant .empty (fun _ _ hs hd => .ofNetlist hd hs) fun _ _ _ step hc => hc.change step

/-! ### The pass over a well-formed circuit -/

theorem WellFormed.mem_gateList (h : WellFormed c) {g : Gate} :
    g ∈ c.gateList ↔ c.gate? g.out = some g := by
  rw [Circuit.mem_gateList]
  constructor
  · rintro ⟨w, hw⟩
    rwa [h.gate_filed w g hw]
  · exact fun hg => ⟨g.out, hg⟩

/-- The gates of a circuit are evaluated after those that they read. -/
theorem WellFormed.ascending (h : WellFormed c) : Ascending c.gateList where
  sorted := gateList_sorted h.gate_filed
  reads g hg k hk hr := by
    refine h.gate_order g.out g (h.mem_gateList.mp hg) k.out hr ?_
    rw [isGateOutput_eq, h.mem_gateList.mp hk, Option.isSome_some]

/-- A complement follows one input and is followed by nothing. -/
theorem WellFormed.apart (h : WellFormed c) : Apart c.inputComplements where
  distinct := h.complement_distinct
  unfollowed p hp q hq he := by
    have hi := h.complement_of_input q hq
    rw [← he, (h.complement_undriven p hp).1] at hi
    cases hi

/-- The store that the pass over the gates starts from: every complement follows its input. -/
def refreshed (c : Circuit) : WireStore := c.inputComplements.foldl follow c.wires

@[simp] theorem polarity?_refreshed (c : Circuit) (w : Nat) :
    c.refreshed.polarity? w = c.wires.polarity? w :=
  polarity?_refresh ..

/-- In a well-formed circuit only the gates can fail. -/
theorem WellFormed.settle_eq (h : WellFormed c) :
    c.settle = runSteps evaluateGate c.refreshed c.gateList := by
  rw [settle, run_refresh fun p hp =>
    ⟨h.input_registered _ (h.complement_of_input p hp), h.complement_registered p hp⟩]
  rfl

end GateNet.Circuit
