import GateNet.Proofs.WellFormed

/-!
What executing computes. A store solves a circuit if every gate output is its function of what the gate
reads and every complement of a known input is opposite to it. Fixing all other raw values leaves one
solution at most, and executing finds it; so what gate outputs held before makes no difference.
-/

namespace GateNet.Circuit

/-- The raw values are as the gates and the complements ask. -/
structure Solution (c : Circuit) (s : WireStore) : Prop where
  /-- An output is known exactly if both wires that its gate reads are. -/
  gate : ∀ w g, c.gate? w = some g → s.raw? w = Option.map₂ g.eval (s.seen? g.a) (s.seen? g.b)
  complement : ∀ p ∈ c.inputComplements, ∀ x, s.seen? p.1 = some x → s.raw? p.2 = some !x

/-- The wire is a gate output or the complement of an input that has a value. -/
def Determined (c : Circuit) (s : WireStore) (w : Nat) : Prop :=
  c.isGateOutput w = true ∨ ∃ p ∈ c.inputComplements, p.2 = w ∧ s.seen? p.1 ≠ none

/-- The circuits have one structure, and raw values that agree wherever they are not determined. -/
structure SameGiven (c d : Circuit) : Prop extends SameStructure c d where
  raw? : ∀ w, ¬ Determined c c.wires w → d.wires.raw? w = c.wires.raw? w

variable {c d : Circuit}

/-- A wire is the complement of an input that has a value, or of none that has. -/
theorem follows_or_idle (c : Circuit) (w : Nat) :
    (∃ p ∈ c.inputComplements, p.2 = w ∧ ∃ x, c.wires.seen? p.1 = some x) ∨
      ∀ p ∈ c.inputComplements, p.2 = w → c.wires.seen? p.1 = none := by
  by_cases h : ∃ p ∈ c.inputComplements, p.2 = w ∧ ∃ x, c.wires.seen? p.1 = some x
  · exact .inl h
  · refine .inr fun p hp he => Option.eq_none_iff_forall_ne_some.mpr fun x hx => ?_
    exact h ⟨p, hp, he, x, hx⟩

namespace WellFormed

theorem notDriven_iff (h : WellFormed c) {w : Nat} :
    NotDriven c.gateList w ↔ c.isGateOutput w = false := by
  rw [isGateOutput_eq, Option.isSome_eq_false_iff, Option.isNone_iff_eq_none]
  constructor
  · intro hw
    refine Option.eq_none_iff_forall_ne_some.mpr fun g hg => ?_
    exact hw g (Circuit.mem_gateList.mpr ⟨w, hg⟩) (h.gate_filed w g hg)
  · intro hw g hg he
    have hgate := h.mem_gateList.mp hg
    rw [he, hw] at hgate
    cases hgate

theorem not_determined_input (h : WellFormed c) {p : Nat × Nat} (hp : p ∈ c.inputComplements)
    (s : WireStore) : ¬ Determined c s p.1 := by
  have hi := h.complement_of_input p hp
  rintro (hd | ⟨q, hq, he, -⟩)
  · rw [h.input_undriven _ hi] at hd
    cases hd
  · rw [← he, (h.complement_undriven q hq).1] at hi
    cases hi

/-- Refreshing the complements writes the determined ones only. -/
theorem raw?_refreshed (h : WellFormed c) {w : Nat}
    (hw : ∀ p ∈ c.inputComplements, p.2 = w → c.wires.seen? p.1 = none) :
    c.refreshed.raw? w = c.wires.raw? w := by
  by_cases hex : ∃ p ∈ c.inputComplements, p.2 = w
  · obtain ⟨p, hp, rfl⟩ := hex
    rw [refreshed, raw?_refresh h.apart h.complement_registered p hp, hw p hp rfl,
      Option.map_none, Option.none_or]
  · exact raw?_refresh_of_ne fun p hp he => hex ⟨p, hp, he⟩

theorem raw?_refreshed_complement (h : WellFormed c) {p : Nat × Nat}
    (hp : p ∈ c.inputComplements) {x : Bool} (hx : c.wires.seen? p.1 = some x) :
    c.refreshed.raw? p.2 = some !x := by
  rw [refreshed, raw?_refresh h.apart h.complement_registered p hp, hx]
  rfl

theorem polarity?_settle (h : WellFormed c) (w : Nat) :
    c.settle.state.polarity? w = c.wires.polarity? w := by
  rw [h.settle_eq, polarity?_pass, polarity?_refreshed]

/-- Nothing but the determined wires is written, also if the pass fails. -/
theorem raw?_settle (h : WellFormed c) {w : Nat} (hw : ¬ Determined c c.wires w) :
    c.settle.state.raw? w = c.wires.raw? w := by
  have hdriven : c.isGateOutput w = false := Bool.not_eq_true _ ▸ fun hd => hw (.inl hd)
  rw [h.settle_eq, raw?_pass (h.notDriven_iff.mpr hdriven)]
  refine h.raw?_refreshed fun p hp he => ?_
  by_contra hx
  exact hw (.inr ⟨p, hp, he, hx⟩)

theorem sameGiven_settle (h : WellFormed c) : SameGiven c { c with wires := c.settle.state } where
  polarity? := h.polarity?_settle
  rest := rfl
  raw? _ hw := h.raw?_settle hw

/-- Inputs are seen alike where everything given is the same. -/
theorem seen?_input (h : WellFormed c) (same : SameGiven c d) {p : Nat × Nat}
    (hp : p ∈ c.inputComplements) : d.wires.seen? p.1 = c.wires.seen? p.1 :=
  WireStore.seen?_congr (same.raw? _ (h.not_determined_input hp _)) (same.polarity? _)

/-- A pass that reaches its end has evaluated every gate. -/
theorem settle_gate (h : WellFormed c) (hok : c.settle.failure = none) {w : Nat} {g : Gate}
    (hg : c.gate? w = some g) :
    ∃ a b, c.settle.state.seen? g.a = some a ∧ c.settle.state.seen? g.b = some b ∧
      c.settle.state.raw? w = some (g.eval a b) := by
  have hrun : runSteps evaluateGate c.refreshed c.gateList = ⟨c.settle.state, none⟩ := by
    rw [← h.settle_eq, ← hok]
  rw [← h.gate_filed w g hg]
  exact pass_satisfies h.ascending hrun g (Circuit.mem_gateList.mpr ⟨w, hg⟩)

/-- A pass that reaches its end has found a solution. -/
theorem settle_solution (h : WellFormed c) (hok : c.settle.failure = none) :
    Solution c c.settle.state ∧ ∀ w, c.isGateOutput w = true → c.settle.state.raw? w ≠ none := by
  refine ⟨⟨fun w g hg => ?_, fun p hp x hx => ?_⟩, fun w hw => ?_⟩
  · obtain ⟨a, b, ha, hb, hout⟩ := h.settle_gate hok hg
    rw [ha, hb, hout]
    rfl
  · rw [h.seen?_input h.sameGiven_settle hp] at hx
    rw [h.settle_eq, raw?_pass (h.notDriven_iff.mpr (h.complement_undriven p hp).2)]
    exact h.raw?_refreshed_complement hp hx
  · rw [isGateOutput_eq, Option.isSome_iff_exists] at hw
    obtain ⟨g, hg⟩ := hw
    obtain ⟨a, b, -, -, hout⟩ := h.settle_gate hok hg
    simp [hout]

/-- A store that is a solution already is left as it is. -/
theorem settle_fixed (h : WellFormed c) (hs : Solution c c.wires) : c.settle.state = c.wires := by
  have hrefresh : c.refreshed = c.wires := by
    refine WireStore.ext_views (fun w => ?_) (polarity?_refreshed _)
    rcases follows_or_idle c w with ⟨p, hp, rfl, x, hx⟩ | hidle
    · rw [h.raw?_refreshed_complement hp hx, hs.complement p hp x hx]
    · exact h.raw?_refreshed hidle
  rw [h.settle_eq, hrefresh]
  refine pass_fixed fun g hg => ?_
  exact hs.gate g.out g (h.mem_gateList.mp hg)

/-- Circuits with the same structure that agree on what is not determined are settled alike. -/
theorem settle_agrees (h : WellFormed c) (same : SameGiven c d) :
    d.settle.failure = c.settle.failure ∧
      (c.settle.failure = none → d.settle.state = c.settle.state) := by
  have hd : WellFormed d := h.sameStructure same.toSameStructure
  have hpairs : d.inputComplements = c.inputComplements := same.inputComplements
  have hgates : d.gateList = c.gateList := same.gateList
  have hraw : ∀ w, NotDriven c.gateList w → c.refreshed.raw? w = d.refreshed.raw? w := by
    intro w hw
    have hundriven := h.notDriven_iff.mp hw
    rcases follows_or_idle c w with ⟨p, hp, rfl, x, hx⟩ | hidle
    · -- the complement of an input that both circuits know
      rw [h.raw?_refreshed_complement hp hx,
        hd.raw?_refreshed_complement (hpairs ▸ hp) ((h.seen?_input same hp).trans hx)]
    · rw [h.raw?_refreshed hidle, hd.raw?_refreshed, same.raw?]
      · rintro (hw | ⟨p, hp, he, hx⟩)
        · rw [hundriven] at hw
          cases hw
        · exact hx (hidle p hp he)
      · rw [hpairs]
        exact fun p hp he => (h.seen?_input same hp).trans (hidle p hp he)
  have hpol : ∀ w, c.refreshed.polarity? w = d.refreshed.polarity? w := fun w => by
    rw [polarity?_refreshed, polarity?_refreshed, same.polarity?]
  obtain ⟨hfail, hstate⟩ := pass_agrees h.ascending hpol hraw
  rw [h.settle_eq, hd.settle_eq, hgates]
  exact ⟨hfail.symm, fun hok => (hstate hok).symm⟩

/-- The solution is determined by what is not. -/
theorem solution_unique (h : WellFormed c) (hok : c.settle.failure = none) {s : WireStore}
    (same : SameGiven c { c with wires := s }) (hs : Solution c s) : s = c.settle.state := by
  have hd : WellFormed { c with wires := s } := h.sameStructure same.toSameStructure
  rw [← (h.settle_agrees same).2 hok]
  exact (hd.settle_fixed ⟨hs.gate, hs.complement⟩).symm

end WellFormed

/-- Executing keeps the structure and all given values. If it succeeds, every gate output and every
complement of a known input is as the one solution has it. And it depends on what is given alone: from
any values of the determined wires it fails alike or ends alike. -/
theorem execute_solves (hc : Reachable c) :
    SameGiven c c.execute.state ∧
      (c.execute.failure = none →
        Solution c c.execute.state.wires ∧
          (∀ w, c.isGateOutput w = true → c.execute.state.wires.raw? w ≠ none) ∧
          ∀ s, SameGiven c { c with wires := s } → Solution c s → s = c.execute.state.wires) ∧
      ∀ d, SameGiven c d →
        d.execute.failure = c.execute.failure ∧
          (c.execute.failure = none → d.execute.state = c.execute.state) := by
  have h := hc.wellFormed
  refine ⟨h.sameGiven_settle, fun hok => ?_, fun d same => ?_⟩
  · obtain ⟨hsol, hknown⟩ := h.settle_solution hok
    exact ⟨hsol, hknown, fun s same hs => h.solution_unique hok same hs⟩
  · obtain ⟨hfail, hstate⟩ := h.settle_agrees same
    refine ⟨hfail, fun hok => ?_⟩
    have hwires := hstate hok
    rw [execute, execute, hwires, same.rest]

/-- A conjunction in a netlist is executed to the end, and once more with the same result. -/
theorem execute_solves_conjunction :
    ∃ c, Netlist.parse "I:0\nI:2\n4 8 0 2\nO:4:1\n" = .ok c ∧
      (Values.load c "0 1\n2 1\n").state.execute.failure = none ∧
      (Values.load c "0 1\n2 1\n").state.execute.state.execute.state =
        (Values.load c "0 1\n2 1\n").state.execute.state := by
  obtain ⟨c, hc, hok⟩ : ∃ c, Netlist.parse "I:0\nI:2\n4 8 0 2\nO:4:1\n" = .ok c ∧
      (Values.load c "0 1\n2 1\n").state.execute.failure = none := ⟨_, rfl, rfl⟩
  have hreach : Reachable (Values.load c "0 1\n2 1\n").state := .load (.parsed hc) _
  obtain ⟨same, -, hagree⟩ := execute_solves hreach
  exact ⟨c, hc, hok, (hagree _ same).2 hok⟩

end GateNet.Circuit
