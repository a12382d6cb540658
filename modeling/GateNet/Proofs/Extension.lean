import GateNet.Proofs.Supply

/-!
Building on what is there. A step of synthesis writes no raw value, so all it does to the wires that are
registered is to leave them alone: they keep their value, polarity, driver and complement, and whatever
is new has a higher number. Gates are evaluated by number, so an execution of the extended circuit first
takes the steps of the old one, and what it meets after them it writes to new wires.
-/

namespace GateNet

open Relation

namespace Operation

/-- The operation is one of synthesis: it builds on the circuit or declares outputs. -/
def Synthesizes : Operation → Prop
  | .build _ => True
  | .constantWord _ _ => True
  | .addOutput _ => True
  | .markOutput _ => True
  | _ => False

theorem Synthesizes.not_writes {op : Operation} (h : op.Synthesizes) (w : Nat) : ¬ op.Writes w := by
  cases op with
  | build step => simp [Writes, Assigns]
  | constantWord width value => simp [Writes, Assigns]
  | addOutput v => simp [Writes, Assigns]
  | markOutput x => simp [Writes, Assigns]
  | _ => exact h.elim

end Operation

namespace Circuit

variable {c d e : Circuit} {written : Nat → Prop} {w : Nat}

/-- A step of synthesis leads from one circuit to the other. It may fail on the way, but it is not at
fault. -/
def Extends (c d : Circuit) : Prop :=
  ∃ op : Operation, op.Synthesizes ∧ (op.run c).circuit? = some d

/-- Everything in the first circuit is in the second one as it was, and what else is there comes after
it. -/
structure Extension (c d : Circuit) : Prop extends Keeps c d where
  raw? : ∀ w, c.wires.contains w = true → d.wires.raw? w = c.wires.raw? w
  complement? : ∀ w v, c.complement? w = some v → d.complement? w = some v
  outputs : c.outputs <+: d.outputs
  above : ∀ w v, c.wires.contains w = true → c.wires.contains v = false →
    d.wires.contains v = true → w < v

namespace Extension

theorem refl (c : Circuit) : Extension c c where
  toKeeps := .refl c
  raw? _ _ := rfl
  complement? _ _ := id
  outputs := List.prefix_refl _
  above w v _ hv hv' := by
    rw [hv] at hv'
    cases hv'

theorem trans (h : Extension c d) (h' : Extension d e) : Extension c e where
  toKeeps := h.toKeeps.trans h'.toKeeps
  raw? w hw := (h'.raw? w (h.contains hw)).trans (h.raw? w hw)
  complement? w v hm := h'.complement? w v (h.complement? w v hm)
  outputs := h.outputs.trans h'.outputs
  above w v hw hv hv' := by
    cases hd : d.wires.contains v with
    | true => exact h.above w v hw hv hd
    | false => exact h'.above w v (h.contains hw) hd hv'

theorem seen? (h : Extension c d) (hw : c.wires.contains w = true) :
    d.wires.seen? w = c.wires.seen? w :=
  WireStore.seen?_congr (h.raw? w hw) (h.polarity? w hw)

end Extension

/-! ### Steps of synthesis -/

theorem Growth.extension (h : Complemented c) (step : Growth c d) : Extension c d := by
  obtain ⟨can, -, -, houtputs, cell, hwires⟩ := step.issues
  refine {
    toKeeps := step.keeps
    raw? := fun w => step.raw?
    complement? := fun w v => h.growth_complement? step
    outputs := houtputs ▸ List.prefix_refl _
    above := fun w v hw hv hv' => ?_ }
  -- the one wire that is new is the next one
  rw [hwires, WireStore.contains_put] at hv'
  have hlt : w < c.nextWire := (h.issued can.origin w).mp hw
  rcases hv' with hnext | hold
  · omega
  · rw [hv] at hold
    cases hold

/-- A change that writes nothing extends the circuit. -/
theorem Change.extension (h : Complemented c) (hn : ∀ w, ¬ written w) (step : Change written c d) :
    Extension c d := by
  have keeps := step.keeps
  cases step with
  | growth _ g => exact g.extension h
  | output hc ho =>
    exact { Extension.refl c with toKeeps := keeps, outputs := List.prefix_append .. }
  | write value hw hc => exact absurd hw (hn _)

theorem Extends.extension (h : Complemented c) (step : Extends c d) :
    Complemented d ∧ Extension c d := by
  obtain ⟨op, hs, hop⟩ := step
  refine Change.preserves (P := fun e => Complemented e ∧ Extension c e) ?_ (changes_run op hop)
    ⟨h, .refl c⟩
  rintro e e' change ⟨he, hext⟩
  exact ⟨he.change change, hext.trans (change.extension he hs.not_writes)⟩

/-- A step of building that succeeds is one. -/
theorem extends_build (step : Construction) {answer : Answer} (h : step.run c = .ok (answer, d)) :
    Extends c d := by
  refine ⟨.build step, trivial, ?_⟩
  rw [Operation.run, Outcome.ofBuild, h]
  rfl

theorem Complemented.extension (h : Complemented c) (steps : ReflTransGen Extends c d) :
    Complemented d ∧ Extension c d := by
  induction steps with
  | refl => exact ⟨h, .refl c⟩
  | tail _ step ih =>
    obtain ⟨he, hext⟩ := ih
    obtain ⟨he', hext'⟩ := step.extension he
    exact ⟨he', hext.trans hext'⟩

/-! ### Values -/

/-- Give raw values to wires, one after the other. -/
def assignAll (c : Circuit) (values : List (Nat × Bool)) : Attempt Circuit Cause :=
  runSteps (fun c value => c.assign value.1 value.2) c values

theorem Extension.write (h : Extension c d) (hw : c.wires.contains w = true) (value : Bool) :
    Extension { c with wires := c.wires.write w value }
      { d with wires := d.wires.write w value } where
  polarity? v hv := by
    rw [WireStore.contains_write] at hv
    rw [WireStore.polarity?_write, WireStore.polarity?_write, h.polarity? v hv]
  isInput v hv := h.isInput v (by rwa [WireStore.contains_write] at hv)
  gate? v hv := h.gate? v (by rwa [WireStore.contains_write] at hv)
  recorded p hp := h.recorded p (by rwa [WireStore.contains_write] at hp)
  raw? v hv := by
    rw [WireStore.contains_write] at hv
    by_cases he : w = v
    · rw [← he, WireStore.raw?_write_self hw, WireStore.raw?_write_self (h.contains hw)]
    · rw [WireStore.raw?_write_of_ne he, WireStore.raw?_write_of_ne he, h.raw? v hv]
  complement? := h.complement?
  outputs := h.outputs
  above v u hv hu hu' := by
    rw [WireStore.contains_write] at hv hu hu'
    exact h.above v u hv hu hu'

/-- Registered wires can be given values in both circuits, and the one still extends the other. -/
theorem Extension.assignAll (h : Extension c d) (hc : WellFormed c) (hd : WellFormed d)
    {values : List (Nat × Bool)} (hw : ∀ value ∈ values, c.wires.contains value.1 = true) :
    ∃ c₁ d₁, c.assignAll values = ⟨c₁, none⟩ ∧ d.assignAll values = ⟨d₁, none⟩ ∧
      Extension c₁ d₁ ∧ WellFormed c₁ ∧ WellFormed d₁ ∧
      ∀ w, c.wires.contains w = true → c₁.wires.contains w = true := by
  induction values generalizing c d with
  | nil => exact ⟨c, d, rfl, rfl, h, hc, hd, fun _ => id⟩
  | cons value rest ih =>
    have hreg := hw value (List.mem_cons_self ..)
    have hreg' := h.contains hreg
    have write : ∀ {e : Circuit}, WellFormed e → e.wires.contains value.1 = true →
        WellFormed { e with wires := e.wires.write value.1 value.2 } := by
      intro e he hreg
      have step : Change (fun _ => True) e _ := .write value.2 trivial hreg
      exact he.change step
    obtain ⟨c₁, d₁, hc₁, hd₁, h₁, wf, wf', hkept⟩ := ih (h.write hreg value.2) (write hc hreg)
      (write hd hreg') fun v hv => by
        rw [WireStore.contains_write]
        exact hw v (List.mem_cons_of_mem value hv)
    refine ⟨c₁, d₁, ?_, ?_, h₁, wf, wf', fun w hw => hkept w ?_⟩
    · rw [Circuit.assignAll, runSteps_cons_ok (assign_ok_iff.mpr ⟨hreg, rfl⟩)]
      exact hc₁
    · rw [Circuit.assignAll, runSteps_cons_ok (assign_ok_iff.mpr ⟨hreg', rfl⟩)]
      exact hd₁
    · rwa [WireStore.contains_write]

/-! ### Executions -/

/-- The gates of the extended circuit are those of the old one and then the new ones. -/
theorem Extension.gateList (h : Extension c d) (hc : WellFormed c) (hd : WellFormed d) :
    ∃ added, d.gateList = c.gateList ++ added ∧ ∀ g ∈ added, c.wires.contains g.out = false := by
  have hmem : ∀ g, c.wires.contains g.out = true → (g ∈ d.gateList ↔ g ∈ c.gateList) := by
    intro g hg
    rw [hd.mem_gateList, hc.mem_gateList, h.gate? _ hg]
  have hold : ∀ g ∈ c.gateList, c.wires.contains g.out = true := fun g hg =>
    (hc.gate_registered _ g (hc.mem_gateList.mp hg)).1
  let added := d.gateList.filter fun g => !c.wires.contains g.out
  have hnew : ∀ g ∈ added, c.wires.contains g.out = false := fun g hg => by
    simpa using (List.mem_filter.mp hg).2
  have hsorted : (c.gateList ++ added).Pairwise (·.out < ·.out) := by
    refine List.pairwise_append.mpr ⟨hc.ascending.sorted, hd.ascending.sorted.filter _, ?_⟩
    intro g hg k hk
    have hk' := hd.mem_gateList.mp (List.mem_of_mem_filter hk)
    exact h.above g.out k.out (hold g hg) (hnew k hk) (hd.gate_registered _ k hk').1
  have hnodup : (c.gateList ++ added).Nodup :=
    hsorted.imp fun hlt he => Nat.ne_of_lt hlt (congrArg Gate.out he)
  have hperm : d.gateList.Perm (c.gateList ++ added) := by
    refine (List.perm_ext_iff_of_nodup (gateList_nodup hd.gate_filed) hnodup).mpr fun g => ?_
    rw [List.mem_append, List.mem_filter]
    cases hg : c.wires.contains g.out with
    | true => simp [hmem g hg]
    | false =>
      have hnot : g ∉ c.gateList := fun hin => by
        rw [hold g hin] at hg
        cases hg
      simp [hnot]
  refine ⟨added, hperm.eq_of_pairwise ?_ hd.ascending.sorted hsorted, hnew⟩
  intro a b _ _ hab hba
  omega

/-- A pass over gates between wires on which two stores agree ends in stores that agree on them. -/
theorem pass_within {P : Nat → Prop} {s t s' : WireStore} {gs : List Gate}
    (hgs : ∀ g ∈ gs, P g.a ∧ P g.b ∧ P g.out)
    (hraw : ∀ w, P w → t.raw? w = s.raw? w) (hpol : ∀ w, P w → t.polarity? w = s.polarity? w)
    (h : runSteps evaluateGate s gs = ⟨s', none⟩) :
    ∃ t', runSteps evaluateGate t gs = ⟨t', none⟩ ∧ ∀ w, P w → t'.raw? w = s'.raw? w := by
  induction gs generalizing s t with
  | nil =>
    cases h
    exact ⟨t, rfl, hraw⟩
  | cons g rest ih =>
    obtain ⟨ha, hb, hout⟩ := hgs g (List.mem_cons_self ..)
    obtain ⟨s₁, hg, h⟩ := runSteps_cons_done_iff.mp h
    obtain ⟨a, b, hsa, hsb, hc, rfl⟩ := evaluateGate_ok_iff.mp hg
    have hc' : t.contains g.out = true := by
      rwa [WireStore.contains_eq, hpol _ hout, ← WireStore.contains_eq]
    rw [← WireStore.seen?_congr (hraw _ ha) (hpol _ ha)] at hsa
    rw [← WireStore.seen?_congr (hraw _ hb) (hpol _ hb)] at hsb
    rw [runSteps_cons_ok (evaluateGate_ok_iff.mpr ⟨a, b, hsa, hsb, hc', rfl⟩)]
    refine ih (fun k hk => hgs k (List.mem_cons_of_mem g hk)) (fun w hw => ?_) (fun w hw => ?_) h
    · by_cases he : g.out = w
      · rw [← he, WireStore.raw?_write_self hc, WireStore.raw?_write_self hc']
      · rw [WireStore.raw?_write_of_ne he, WireStore.raw?_write_of_ne he, hraw w hw]
    · rw [WireStore.polarity?_write, WireStore.polarity?_write, hpol w hw]

/-- Bringing the complements of inputs up to date does the same to the wires of both circuits. -/
theorem Extension.refreshed (h : Extension c d) (hc : WellFormed c) (hd : WellFormed d)
    (hw : c.wires.contains w = true) : d.refreshed.raw? w = c.refreshed.raw? w := by
  have hseen : ∀ p ∈ c.inputComplements, d.wires.seen? p.1 = c.wires.seen? p.1 := fun p hp =>
    h.seen? (hc.input_registered _ (hc.complement_of_input p hp))
  rcases follows_or_idle c w with ⟨p, hp, rfl, x, hx⟩ | hidle
  · have hp' : p ∈ d.inputComplements := (h.recorded p hw).mpr hp
    rw [hc.raw?_refreshed_complement hp hx,
      hd.raw?_refreshed_complement hp' ((hseen p hp).trans hx)]
  · rw [hc.raw?_refreshed hidle, hd.raw?_refreshed, h.raw? w hw]
    rintro p hp rfl
    have hp' := (h.recorded p hw).mp hp
    rw [hseen p hp', hidle p hp' rfl]

/-- Where the old circuit is executed to the end, an execution of the extended one gives its wires the
same values, also if it fails at a new gate. -/
theorem Extension.execute (h : Extension c d) (hc : WellFormed c) (hd : WellFormed d)
    (hok : c.execute.failure = none) (hw : c.wires.contains w = true) :
    d.execute.state.wires.raw? w = c.execute.state.wires.raw? w := by
  show d.settle.state.raw? w = c.settle.state.raw? w
  have hrun : runSteps evaluateGate c.refreshed c.gateList = ⟨c.settle.state, none⟩ := by
    rw [← hc.settle_eq, ← hok]
    rfl
  obtain ⟨added, hgates, hnew⟩ := h.gateList hc hd
  obtain ⟨t, ht, hagree⟩ := pass_within (P := fun w => c.wires.contains w = true)
    (fun g hg => by
      obtain ⟨hout, ha, hb⟩ := hc.gate_registered _ g (hc.mem_gateList.mp hg)
      exact ⟨ha, hb, hout⟩)
    (fun w => h.refreshed hc hd)
    (fun w hw => by rw [polarity?_refreshed, polarity?_refreshed, h.polarity? w hw]) hrun
  -- the new gates come after the old ones and drive new wires
  have hundriven : NotDriven added w := fun g hg he => by
    rw [← he, hnew g hg] at hw
    cases hw
  rw [hd.settle_eq, hgates, runSteps_append, ht, raw?_pass hundriven, hagree w hw]

/-- Steps of synthesis leave everything that was there as it was, and number what they add above it. And
whatever values the inputs of the old circuit are given: if it is executed to the end, an execution of
the extended circuit gives each of its wires the same value, whether it gets to the end or not. -/
theorem synthesis_preserves (hc : Reachable c) (steps : ReflTransGen Extends c d) :
    Extension c d ∧
      ∀ values : List (Nat × Bool), (∀ value ∈ values, c.isInput value.1 = true) →
        ∃ c₁ d₁, c.assignAll values = ⟨c₁, none⟩ ∧ d.assignAll values = ⟨d₁, none⟩ ∧
          (c₁.execute.failure = none → ∀ w, c.wires.contains w = true →
            d₁.execute.state.wires.raw? w = c₁.execute.state.wires.raw? w) := by
  have h := hc.complemented
  obtain ⟨hd, hext⟩ := h.extension steps
  refine ⟨hext, fun values hinputs => ?_⟩
  obtain ⟨c₁, d₁, hc₁, hd₁, hext₁, wf, wf', hkept⟩ := hext.assignAll h.toWellFormed hd.toWellFormed
    fun value hv => h.input_registered _ (hinputs value hv)
  exact ⟨c₁, d₁, hc₁, hd₁, fun hok w hw => hext₁.execute wf wf' hok (hkept w hw)⟩

/-- A conjunction is extended by the complement of an input, an output, and a gate over a wire that
nothing drives: the execution fails at that gate, and the conjunction has its value. -/
theorem synthesis_preserves_conjunction :
    ∃ c d d₁, Reachable c ∧ ReflTransGen Extends c d ∧
      d.assignAll [(0, true), (1, true)] = ⟨d₁, none⟩ ∧
      d₁.execute.failure = some (.unassignedInput 5 4) ∧
      d₁.execute.state.wires.raw? 2 = some true := by
  obtain ⟨c, d, hc, hsteps, hreg, hinputs, c₁, hc₁, hok, hvalue, d₁, hd₁, hfail⟩ :
      ∃ c d, Reachable c ∧ ReflTransGen Extends c d ∧ c.wires.contains 2 = true ∧
        (c.isInput 0 = true ∧ c.isInput 1 = true) ∧
        ∃ c₁, c.assignAll [(0, true), (1, true)] = ⟨c₁, none⟩ ∧ c₁.execute.failure = none ∧
          c₁.execute.state.wires.raw? 2 = some true ∧
        ∃ d₁, d.assignAll [(0, true), (1, true)] = ⟨d₁, none⟩ ∧
          d₁.execute.failure = some (.unassignedInput 5 4) := by
    have hinputs := Reachable.empty.operated (.build (.issueInputs 2)) rfl
    have hgate := hinputs.operated (.build (.addGate .and 0 1)) rfl
    refine ⟨_, _, hgate, .head ⟨.build (.invert 0), trivial, rfl⟩ (.head ⟨.addOutput 2, trivial, rfl⟩
      (.head ⟨.build .issueWire, trivial, rfl⟩
        (.single ⟨.build (.addGate .xor 2 4), trivial, rfl⟩))), rfl, ⟨rfl, rfl⟩, _, rfl, rfl, rfl,
      _, rfl, rfl⟩
  obtain ⟨-, hvalues⟩ := synthesis_preserves hc hsteps
  obtain ⟨c₂, d₂, hc₂, hd₂, hsame⟩ := hvalues [(0, true), (1, true)] fun value hv => by
    rcases List.mem_cons.mp hv with rfl | hv
    · exact hinputs.1
    · obtain rfl := List.mem_singleton.mp hv
      exact hinputs.2
  rw [hc₁] at hc₂
  rw [hd₁] at hd₂
  cases hc₂
  cases hd₂
  exact ⟨c, d, d₁, hc, hsteps, hd₁, hfail, (hsame hok 2 hreg).trans hvalue⟩

end Circuit

end GateNet
