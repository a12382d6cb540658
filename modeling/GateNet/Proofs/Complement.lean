import GateNet.Proofs.Structure

/-!
Complements and the memory of them. Changes leave registered wires as they are, raw values apart, so a
pair of complements stays one, and a new pair joins a wire that had no complement to one that was not
there. So the memory is an involution at all times: a wire that can be paired is paired once, with the
wire that it will have as its complement ever after.
-/

namespace GateNet.Circuit

open Relation Netlist

variable {c d : Circuit} {written : Nat → Prop} {w v : Nat}

/-! ### What changes leave as it is -/

/-- What is registered stays as it is, but for raw values and the list of outputs. -/
structure Keeps (c d : Circuit) : Prop where
  polarity? : ∀ w, c.wires.contains w = true → d.wires.polarity? w = c.wires.polarity? w
  isInput : ∀ w, c.wires.contains w = true → d.isInput w = c.isInput w
  gate? : ∀ w, c.wires.contains w = true → d.gate? w = c.gate? w
  /-- No registered wire becomes the complement of an input. -/
  recorded : ∀ p, c.wires.contains p.2 = true →
    (p ∈ d.inputComplements ↔ p ∈ c.inputComplements)

namespace Keeps

theorem isGateOutput (h : Keeps c d) (hw : c.wires.contains w = true) :
    d.isGateOutput w = c.isGateOutput w := by
  rw [isGateOutput_eq, isGateOutput_eq, h.gate? w hw]

theorem refl (c : Circuit) : Keeps c c :=
  ⟨fun _ _ => rfl, fun _ _ => rfl, fun _ _ => rfl, fun _ _ => Iff.rfl⟩

theorem contains (h : Keeps c d) (hw : c.wires.contains w = true) : d.wires.contains w = true := by
  rwa [WireStore.contains_eq, h.polarity? w hw, ← WireStore.contains_eq]

theorem trans {e : Circuit} (h : Keeps c d) (h' : Keeps d e) : Keeps c e where
  polarity? w hw := (h'.polarity? w (h.contains hw)).trans (h.polarity? w hw)
  isInput w hw := (h'.isInput w (h.contains hw)).trans (h.isInput w hw)
  gate? w hw := (h'.gate? w (h.contains hw)).trans (h.gate? w hw)
  recorded p hp := (h'.recorded p (h.contains hp)).trans (h.recorded p hp)

end Keeps

theorem Growth.keeps (step : Growth c d) : Keeps c d := by
  obtain ⟨can, -, -, -, cell, hwires⟩ := step.issues
  have hne : ∀ w, c.wires.contains w = true → c.nextWire ≠ w := fun _ => can.ne
  refine {
    polarity? := fun w hw => by rw [hwires, WireStore.polarity?_put, if_neg (hne w hw)]
    isInput := fun w hw => ?_
    gate? := fun w hw => ?_
    recorded := fun p hp => ?_ }
  · cases step with
    | input can =>
      rw [Bool.eq_iff_iff]
      refine (isInput_insert (c.issue false none) c.nextWire w).trans ?_
      exact or_iff_right fun he => hne w hw he.symm
    | _ => rfl
  · cases step with
    | gate function can ha hb free => exact (gate?_file ..).trans (if_neg (hne w hw))
    | gateComplement can memo hc hi hg free => exact (gate?_file ..).trans (if_neg (hne w hw))
    | _ => rfl
  · cases step with
    | inputComplement can memo hc hi =>
      refine mem_inputComplements.trans (or_iff_right ?_)
      rintro rfl
      exact hne _ hp rfl
    | _ => exact Iff.rfl

theorem Change.keeps (step : Change written c d) : Keeps c d := by
  cases step with
  | growth hn g => exact g.keeps
  | @output w cell hc ho => exact { Keeps.refl c with }
  | write value hw hc =>
    exact { Keeps.refl c with polarity? := fun v _ => WireStore.polarity?_write .. }

theorem Operated.keeps (hop : Operated c d) : Keeps c d := by
  obtain ⟨op, hop⟩ := hop
  refine Change.preserves (P := Keeps c) ?_ (changes_run op hop) (.refl c)
  exact fun _ _ step h => h.trans step.keeps

/-- Only the complement of a gate output is registered in the inverted polarity. -/
theorem Growth.plain (step : Growth c d) (hw : d.wires.contains w = true) :
    c.wires.contains w = true ∨ d.isGateOutput w = true ∨
      d.wires.polarity? w = some ⟨false, false⟩ := by
  have issued : ∀ value, (c.issue false value).wires.polarity? c.nextWire = some ⟨false, false⟩ :=
    fun _ => (WireStore.polarity?_put ..).trans (if_pos rfl)
  obtain ⟨-, -, -, -, cell, hwires⟩ := step.issues
  rw [hwires, WireStore.contains_put] at hw
  rcases hw with rfl | old
  · cases step with
    | wire value can => exact .inr (.inr (issued value))
    | input can => exact .inr (.inr (issued none))
    | gate function can ha hb free => exact .inr (.inr (issued none))
    | inputComplement can memo hc hi => exact .inr (.inr (issued _))
    | gateComplement can memo hc hi hg free =>
      exact .inr (.inl ((isGateOutput_file ..).mpr (.inl rfl)))
  · exact .inl old

theorem Change.plain (step : Change written c d) (hw : d.wires.contains w = true) :
    c.wires.contains w = true ∨ d.isGateOutput w = true ∨
      d.wires.polarity? w = some ⟨false, false⟩ := by
  cases step with
  | growth hn g => exact g.plain hw
  | output hc ho => exact .inl hw
  | write value hv hc => exact .inl (by rwa [WireStore.contains_write] at hw)

theorem Change.netlist_iff (step : Change written c d) :
    d.origin = .netlist ↔ c.origin = .netlist := by
  cases step with
  | growth hn g =>
    obtain ⟨can, ho, -⟩ := g.issues
    simp [ho, can.origin]
  | output hc ho => exact Iff.rfl
  | write value hw hc => exact Iff.rfl

theorem Operated.netlist_iff (hop : Operated c d) : d.origin = .netlist ↔ c.origin = .netlist := by
  obtain ⟨op, hop⟩ := hop
  exact Change.preserves (P := fun e => e.origin = .netlist ↔ c.origin = .netlist)
    (fun _ _ step he => step.netlist_iff.trans he) (changes_run op hop) Iff.rfl

/-! ### Pairs -/

/-- The second wire is the complement of the first one, an input. -/
structure Follows (c : Circuit) (w v : Nat) : Prop where
  input : c.isInput w = true
  recorded : (w, v) ∈ c.inputComplements
  not_input : c.isInput v = false
  not_driven : c.isGateOutput v = false

/-- The wires are an input and its complement, or two gates of one function over the same wires that
are registered in opposite polarities. -/
inductive Paired (c : Circuit) (w v : Nat) : Prop
  | input : Follows c w v → Paired c w v
  | complement : Follows c v w → Paired c w v
  | gates {g k : Gate} {p q : Polarity} : c.gate? w = some g → c.gate? v = some k →
      k.function = g.function → k.a = g.a → k.b = g.b →
      c.wires.polarity? w = some p → c.wires.polarity? v = some q → q.inverted = (!p.inverted) →
      Paired c w v

theorem Follows.keep (h : Follows c w v) (keeps : Keeps c d) (hw : c.wires.contains w = true)
    (hv : c.wires.contains v = true) : Follows d w v where
  input := (keeps.isInput w hw).trans h.input
  recorded := (keeps.recorded (w, v) hv).mpr h.recorded
  not_input := (keeps.isInput v hv).trans h.not_input
  not_driven := (keeps.isGateOutput hv).trans h.not_driven

namespace Paired

theorem symm (h : Paired c w v) : Paired c v w := by
  cases h with
  | input f => exact .complement f
  | complement f => exact .input f
  | gates hg hk hf ha hb hp hq hi =>
    exact .gates hk hg hf.symm ha.symm hb.symm hq hp (by rw [hi, Bool.not_not])

theorem keep (h : Paired c w v) (keeps : Keeps c d) (hw : c.wires.contains w = true)
    (hv : c.wires.contains v = true) : Paired d w v := by
  cases h with
  | input f => exact .input (f.keep keeps hw hv)
  | complement f => exact .complement (f.keep keeps hv hw)
  | gates hg hk hf ha hb hp hq hi =>
    exact .gates ((keeps.gate? w hw).trans hg) ((keeps.gate? v hv).trans hk) hf ha hb
      ((keeps.polarity? w hw).trans hp) ((keeps.polarity? v hv).trans hq) hi

theorem registered (h : Paired c w v) (wf : WellFormed c) :
    c.wires.contains w = true ∧ c.wires.contains v = true := by
  cases h with
  | input f => exact ⟨wf.input_registered w f.input, wf.complement_registered _ f.recorded⟩
  | complement f => exact ⟨wf.complement_registered _ f.recorded, wf.input_registered v f.input⟩
  | gates hg hk =>
    exact ⟨(wf.gate_registered w _ hg).1, (wf.gate_registered v _ hk).1⟩

/-- No wire is paired with itself. -/
theorem ne (h : Paired c w v) : w ≠ v := by
  rintro rfl
  cases h with
  | input f => exact Bool.false_ne_true (f.not_input.symm.trans f.input)
  | complement f => exact Bool.false_ne_true (f.not_input.symm.trans f.input)
  | gates hg hk hf ha hb hp hq hi =>
    rw [hp] at hq
    cases hq
    simp at hi

end Paired

theorem complement?_congr (h : d.complements = c.complements) (w : Nat) :
    d.complement? w = c.complement? w :=
  congrArg (fun memory => memory[w]?) h

theorem complement?_pairUp (c : Circuit) (w v u : Nat) :
    (c.pairUp w v).complement? u =
      if v = u then some w else if w = u then some v else c.complement? u := by
  rw [pairUp, complement?, Std.ExtTreeMap.getElem?_insert, Std.ExtTreeMap.getElem?_insert]
  simp [complement?]

/-- What the memory holds once two wires are paired. -/
theorem complement?_pairUp_iff (hne : w ≠ v) {u x : Nat} :
    (c.pairUp w v).complement? u = some x ↔
      (u = w ∧ x = v) ∨ (u = v ∧ x = w) ∨ (u ≠ w ∧ u ≠ v ∧ c.complement? u = some x) := by
  rw [complement?_pairUp]
  by_cases hv : v = u
  · subst hv
    simp [hne.symm, eq_comm]
  · by_cases hw : w = u
    · subst hw
      simp [hv, hne, eq_comm]
    · simp [hv, hw, Ne.symm hv, Ne.symm hw]

/-- An act of building leaves the memory as it is, or pairs a wire that had no complement with the
wire that it issues. -/
theorem Growth.pairs (h : WellFormed c) (step : Growth c d) :
    (d.complements = c.complements ∧ d.inputComplements = c.inputComplements) ∨
      ∃ w, c.complement? w = none ∧ d.complements = (c.pairUp w c.nextWire).complements ∧
        Paired d w c.nextWire ∧
        ∀ p ∈ d.inputComplements, p = (w, c.nextWire) ∨ p ∈ c.inputComplements := by
  cases step with
  | wire value can => exact .inl ⟨rfl, rfl⟩
  | input can => exact .inl ⟨rfl, rfl⟩
  | gate function can ha hb free => exact .inl ⟨rfl, rfl⟩
  | @inputComplement w cell can memo hc hi =>
    have idle := h.idle can.unused
    have recorded : (w, c.nextWire) ∈ (c.withInputComplement w cell).inputComplements :=
      mem_inputComplements.mpr (.inl rfl)
    exact .inr ⟨w, memo, rfl, .input ⟨hi, recorded, idle.not_input, idle.not_driven⟩,
      fun p hp => mem_inputComplements.mp hp⟩
  | @gateComplement w g cell can memo hc hi hg free =>
    have hw : c.wires.contains w = true := WireStore.contains_iff.mpr ⟨_, hc⟩
    have hp : c.wires.polarity? w = some cell.polarity := by simp [WireStore.polarity?, hc]
    have keeps := (Growth.gateComplement can memo hc hi hg free).keeps
    have hq : (c.withGateComplement w g cell).wires.polarity? c.nextWire =
        some ⟨!cell.polarity.inverted, false⟩ := (WireStore.polarity?_put ..).trans (if_pos rfl)
    refine .inr ⟨w, memo, rfl, .gates ((keeps.gate? w hw).trans hg)
      ((gate?_file ..).trans (if_pos rfl)) rfl rfl rfl ((keeps.polarity? w hw).trans hp) hq rfl,
      fun p hp => .inr hp⟩

/-- A circuit whose complements are in order: the memory joins them in pairs, and all wires but gate
outputs are read plain. -/
structure Complemented (c : Circuit) : Prop extends Sound c where
  symm : ∀ w v, c.complement? w = some v → c.complement? v = some w
  paired : ∀ w v, c.complement? w = some v → Paired c w v
  /-- Every complement of an input is remembered. -/
  remembered : ∀ p ∈ c.inputComplements, c.complement? p.1 = some p.2
  plain : c.origin ≠ .netlist → ∀ w, c.wires.contains w = true → c.isGateOutput w = false →
    c.wires.polarity? w = some ⟨false, false⟩

namespace Complemented

theorem empty : Complemented {} where
  toSound := .empty
  symm w v h := by simp [complement?] at h
  paired w v h := by simp [complement?] at h
  remembered := by simp
  plain _ w h := by simp [WireStore.contains] at h

theorem registered (h : Complemented c) (hm : c.complement? w = some v) :
    c.wires.contains w = true ∧ c.wires.contains v = true :=
  (h.paired w v hm).registered h.toWellFormed

/-- No two wires have one complement. -/
theorem injective (h : Complemented c) {u : Nat} (hw : c.complement? w = some v)
    (hu : c.complement? u = some v) : w = u := by
  have hv := h.symm w v hw
  rw [h.symm u v hu] at hv
  exact (Option.some.inj hv).symm

/-- Building forgets no complement. -/
theorem growth_complement? (h : Complemented c) (step : Growth c d) (hm : c.complement? w = some v) :
    d.complement? w = some v := by
  rcases step.pairs h.toWellFormed with ⟨hmemo, -⟩ | ⟨u, hu, hmemo, -⟩
  · exact (complement?_congr hmemo w).trans hm
  · have hnext : c.nextWire ≠ w := step.issues.1.ne (h.registered hm).1
    have hne : u ≠ w := by
      rintro rfl
      rw [hu] at hm
      cases hm
    rw [complement?_congr hmemo, complement?_pairUp, if_neg hnext, if_neg hne, hm]

theorem change_complement? (h : Complemented c) (step : Change written c d)
    (hm : c.complement? w = some v) : d.complement? w = some v := by
  cases step with
  | growth hn g => exact h.growth_complement? g hm
  | output hc ho => exact hm
  | write value hw hc => exact hm

/-! ### Every change -/

theorem change_plain (h : Complemented c) (step : Change written c d) (ho : d.origin ≠ .netlist)
    (hw : d.wires.contains w = true) (hg : d.isGateOutput w = false) :
    d.wires.polarity? w = some ⟨false, false⟩ := by
  have keeps := step.keeps
  rcases step.plain hw with old | driven | plain
  · rw [keeps.polarity? w old]
    exact h.plain (fun hn => ho (step.netlist_iff.mpr hn)) w old (keeps.isGateOutput old ▸ hg)
  · rw [driven] at hg
    cases hg
  · exact plain

/-- A change that leaves the memory as it is keeps the complements in order. -/
theorem keep (h : Complemented c) (step : Change written c d) (hmemo : d.complements = c.complements)
    (hpairs : d.inputComplements = c.inputComplements) : Complemented d := by
  have hcomp := complement?_congr hmemo
  exact {
    toSound := h.toSound.change step
    symm := fun w v hm => by
      rw [hcomp] at hm ⊢
      exact h.symm w v hm
    paired := fun w v hm => by
      rw [hcomp] at hm
      have hreg := h.registered hm
      exact (h.paired w v hm).keep step.keeps hreg.1 hreg.2
    remembered := fun p hp => by
      rw [hpairs] at hp
      rw [hcomp]
      exact h.remembered p hp
    plain := fun ho w hw hg => h.change_plain step ho hw hg }

/-- A wire without a complement can be paired with the wire that is issued. -/
theorem pair (h : Complemented c) (step : Growth c d)
    (hmemo : d.complements = (c.pairUp w c.nextWire).complements) (hnew : Paired d w c.nextWire)
    (hpairs : ∀ p ∈ d.inputComplements, p = (w, c.nextWire) ∨ p ∈ c.inputComplements) :
    Complemented d := by
  have hmem : ∀ {u x}, d.complement? u = some x ↔ (u = w ∧ x = c.nextWire) ∨
      (u = c.nextWire ∧ x = w) ∨ (u ≠ w ∧ u ≠ c.nextWire ∧ c.complement? u = some x) := by
    intro u x
    rw [complement?_congr hmemo, complement?_pairUp_iff hnew.ne]
  exact {
    toSound := h.toSound.growth step
    symm := fun u x hm => by
      rcases hmem.mp hm with ⟨rfl, rfl⟩ | ⟨rfl, rfl⟩ | ⟨-, -, hm⟩
      · exact hmem.mpr (.inr (.inl ⟨rfl, rfl⟩))
      · exact hmem.mpr (.inl ⟨rfl, rfl⟩)
      · exact h.growth_complement? step (h.symm u x hm)
    paired := fun u x hm => by
      rcases hmem.mp hm with ⟨rfl, rfl⟩ | ⟨rfl, rfl⟩ | ⟨-, -, hm⟩
      · exact hnew
      · exact hnew.symm
      · obtain ⟨hu, hx⟩ := h.registered hm
        exact (h.paired u x hm).keep step.keeps hu hx
    remembered := fun p hp => by
      rcases hpairs p hp with rfl | hp
      · exact hmem.mpr (.inl ⟨rfl, rfl⟩)
      · exact h.growth_complement? step (h.remembered p hp)
    plain := fun ho w hw hg => h.change_plain step.change ho hw hg }

theorem growth (h : Complemented c) (step : Growth c d) : Complemented d := by
  rcases step.pairs h.toWellFormed with ⟨hmemo, hpairs⟩ | ⟨w, -, hmemo, hnew, hpairs⟩
  · exact h.keep step.change hmemo hpairs
  · exact h.pair step hmemo hnew hpairs

theorem grown (h : Complemented c) (hd : ReflTransGen Growth c d) : Complemented d := by
  induction hd with
  | refl => exact h
  | tail _ step ih => exact ih.growth step

theorem change (h : Complemented c) (step : Change written c d) : Complemented d := by
  cases step with
  | growth hn g => exact h.growth g
  | output hc ho => exact h.keep (Change.output hc ho : Change written _ _) rfl rfl
  | write value hw hc => exact h.keep (.write value hw hc) rfl rfl

/-! ### Netlists -/

theorem ofNetlist {ss : List Statement} (h : Describes ss c) (hs : Consistent ss) :
    Complemented c := by
  have hnone : ∀ w v, c.complement? w ≠ some v := fun w v => by
    simp [complement?, h.complements]
  exact {
    toSound := .ofNetlist h hs
    symm := fun w v hm => absurd hm (hnone w v)
    paired := fun w v hm => absurd hm (hnone w v)
    remembered := by simp [h.inputComplements]
    plain := fun ho => absurd h.origin ho }

/-- Operations keep the complements in order and forget none of them. -/
theorem operated (h : Complemented c) (hop : Operated c d) :
    Complemented d ∧ ∀ w v, c.complement? w = some v → d.complement? w = some v := by
  obtain ⟨op, hop⟩ := hop
  refine Change.preserves
    (P := fun e => Complemented e ∧ ∀ w v, c.complement? w = some v → e.complement? w = some v)
    ?_ (changes_run op hop) ⟨h, fun _ _ => id⟩
  rintro e e' step ⟨he, hkept⟩
  exact ⟨he.change step, fun w v hm => he.change_complement? step (hkept w v hm)⟩

theorem operations (h : Complemented c) (hops : ReflTransGen Operated c d) :
    Complemented d ∧ ∀ w v, c.complement? w = some v → d.complement? w = some v := by
  induction hops with
  | refl => exact ⟨h, fun _ _ => id⟩
  | tail _ hop ih =>
    obtain ⟨hd, hkept⟩ := ih.1.operated hop
    exact ⟨hd, fun w v hm => hkept w v (ih.2 w v hm)⟩

end Complemented

theorem Reachable.complemented (h : Reachable c) : Complemented c :=
  h.invariant .empty (fun _ _ hs hd => .ofNetlist hd hs) fun _ _ _ step hc => hc.change step

/-! ### Inverting -/

/-- The wires whose complement is remembered once it is built: inputs, gate outputs and the complements
of inputs. -/
def Invertible (c : Circuit) (w : Nat) : Prop :=
  c.isInput w = true ∨ c.isGateOutput w = true ∨ ∃ p ∈ c.inputComplements, p.2 = w

/-- A complement that is remembered is the answer, and the circuit stays as it is. -/
theorem invert_known (hm : c.complement? w = some v) : Build.invert w c = .ok (v, c) :=
  Build.invert_ok_iff.mpr (.inl ⟨hm, rfl⟩)

namespace Complemented

/-- An input or a gate output without a complement can be given one. -/
theorem invert_unknown (h : Complemented c) (ho : c.origin ≠ .netlist) (hw : Invertible c w)
    (hm : c.complement? w = none) :
    ∃ d, Build.invert w c = .ok (c.nextWire, d) ∧ Growth c d ∧
      d.complement? w = some c.nextWire := by
  have can := h.canIssue ho
  have hnew : ∀ {e}, c.wires.contains w = true →
      (Circuit.pairUp e w c.nextWire).complement? w = some c.nextWire := by
    intro e hreg
    rw [complement?_pairUp, if_neg (can.ne hreg), if_pos rfl]
  rcases hw with hi | hg | ⟨p, hp, rfl⟩
  · have hreg := h.input_registered w hi
    obtain ⟨cell, hc⟩ := WireStore.contains_iff.mp hreg
    exact ⟨_, Build.invert_ok_iff.mpr (.inr ⟨hm, can, rfl, cell, hc, .inl ⟨hi, rfl⟩⟩),
      .inputComplement can hm hc hi, hnew hreg⟩
  · have hi : c.isInput w = false := by
      rw [← Bool.not_eq_true]
      intro hi
      rw [h.input_undriven w hi] at hg
      cases hg
    have free := (h.toWellFormed.idle can.unused).not_driven
    rw [isGateOutput_eq, Option.isSome_iff_exists] at hg
    obtain ⟨g, hg⟩ := hg
    have hreg := (h.gate_registered w g hg).1
    obtain ⟨cell, hc⟩ := WireStore.contains_iff.mp hreg
    exact ⟨_, Build.invert_ok_iff.mpr (.inr ⟨hm, can, rfl, cell, hc,
      .inr (.inl ⟨hi, g, hg, free, rfl⟩)⟩), .gateComplement can hm hc hi hg free, hnew hreg⟩
  · -- the complement of an input has the input as its complement
    rw [h.symm _ _ (h.remembered p hp)] at hm
    cases hm

/-- The complement of a wire that can be paired is built or known, and remembered from then on. -/
theorem invert_ok (h : Complemented c) (ho : c.origin ≠ .netlist) (hw : Invertible c w) :
    ∃ n d, Build.invert w c = .ok (n, d) ∧ Complemented d ∧ d.complement? w = some n := by
  cases hm : c.complement? w with
  | some v => exact ⟨v, c, invert_known hm, h, hm⟩
  | none =>
    obtain ⟨d, hd, step, hm⟩ := h.invert_unknown ho hw hm
    exact ⟨c.nextWire, d, hd, h.growth step, hm⟩

end Complemented

end GateNet.Circuit
