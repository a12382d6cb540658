import GateNet.Proofs.Complement
import GateNet.Proofs.Solution

/-!
Circuits that get their values through their inputs. As long as nothing but executing writes the other
wires, the complement of an input is unknown while the input is, and every execution, also one that
fails, sets it opposite to the input. A gate and its complement read the same wires, so an execution
that succeeds gives them one raw value, which their readers see opposite. Hence inverting a wire gives
the opposite value after every successful execution, whenever the wire was inverted.
-/

namespace GateNet.Circuit

open Relation

variable {c d : Circuit} {w v : Nat} {bit : Bool}

/-- An operation other than executing leads from one circuit to the other, and among the wires that are
there it gives values to inputs alone. -/
def Supplies (c d : Circuit) : Prop :=
  ∃ op : Operation, op ≠ .execute ∧ (op.run c).circuit? = some d ∧
    ∀ w, c.wires.contains w = true → c.isInput w = false → d.wires.raw? w = c.wires.raw? w

/-- The circuit is built on or supplied with values for its inputs, or it is executed, which may fail. -/
inductive Proceeds : Circuit → Circuit → Prop
  | supplied {c d : Circuit} : Supplies c d → Proceeds c d
  | executed {c : Circuit} : Proceeds c c.execute.state

/-- The circuits that are built up from nothing and given values for their inputs alone. -/
def Supplied (c : Circuit) : Prop := ReflTransGen Proceeds {} c

theorem Proceeds.operated (step : Proceeds c d) : Operated c d := by
  cases step with
  | supplied h =>
    obtain ⟨op, -, hop, -⟩ := h
    exact ⟨op, hop⟩
  | executed => exact ⟨.execute, circuit?_ofAttempt ..⟩

theorem Supplied.reachable (h : Supplied c) : Reachable c := by
  induction h with
  | refl => exact .empty
  | tail _ step ih =>
    obtain ⟨op, hop⟩ := step.operated
    exact ih.operated op hop

theorem Supplied.empty : Supplied {} := .refl

theorem Supplied.supplies (h : Supplied c) (hs : Supplies c d) : Supplied d :=
  h.tail (.supplied hs)

/-! ### What changes do to values -/

/-- Building gives no value to a wire that is there. -/
theorem Growth.raw? (step : Growth c d) (hw : c.wires.contains w = true) :
    d.wires.raw? w = c.wires.raw? w := by
  obtain ⟨can, -, -, -, cell, hwires⟩ := step.issues
  rw [hwires, WireStore.raw?_put, if_neg (can.ne hw)]

/-- A value is replaced at most, never taken away. -/
theorem Change.raw?_known {written : Nat → Prop} (step : Change written c d)
    (hw : c.wires.raw? w ≠ none) : d.wires.raw? w ≠ none := by
  cases step with
  | growth hn g =>
    obtain ⟨x, hx⟩ := Option.ne_none_iff_exists'.mp hw
    obtain ⟨cell, hc, -⟩ := Option.bind_eq_some_iff.mp hx
    rwa [g.raw? (WireStore.contains_iff.mpr ⟨cell, hc⟩)]
  | output hc ho => exact hw
  | @write v value hv hc =>
    by_cases he : v = w
    · rw [← he, WireStore.raw?_write_self hc]
      exact Option.some_ne_none _
    · rwa [WireStore.raw?_write_of_ne he]

theorem Operated.raw?_known (hop : Operated c d) (hw : c.wires.raw? w ≠ none) :
    d.wires.raw? w ≠ none := by
  obtain ⟨op, hop⟩ := hop
  exact Change.preserves (P := fun e => e.wires.raw? w ≠ none) (fun _ _ step => step.raw?_known)
    (changes_run op hop) hw

/-- An operation that is given values for inputs alone supplies the circuit. -/
theorem supplies_of_assigns (op : Operation) (hx : op ≠ .execute)
    (hop : (op.run c).circuit? = some d)
    (hw : ∀ w, op.Assigns w → c.wires.contains w = true → c.isInput w = true) : Supplies c d := by
  refine ⟨op, hx, hop, fun w hreg hi => ?_⟩
  have hnot : ¬ op.Writes w := by
    rintro (ha | he)
    · rw [hw w ha hreg] at hi
      cases hi
    · exact hx he
  refine (Change.preserves
    (P := fun e => e.wires.contains w = true ∧ e.wires.raw? w = c.wires.raw? w) ?_
    (changes_run op hop) ⟨hreg, rfl⟩).2
  rintro e e' step ⟨he, hsame⟩
  refine ⟨step.keeps.contains he, ?_⟩
  cases step with
  | growth hn g => rw [g.raw? he, hsame]
  | output hc ho => exact hsame
  | write value hv hc =>
    rw [WireStore.raw?_write_of_ne, hsame]
    rintro rfl
    exact hnot hv

theorem supplies_build (step : Construction) {answer : Answer} (h : step.run c = .ok (answer, d)) :
    Supplies c d := by
  refine supplies_of_assigns (.build step) nofun ?_ fun _ ha => ha.elim
  rw [Operation.run, Outcome.ofBuild, h]
  rfl

/-! ### An input and its complement -/

/-- The second wire of the pair is opposite to the first one, and unknown if that is. -/
def InStep (s : WireStore) (p : Nat × Nat) : Prop := s.raw? p.2 = (s.raw? p.1).map (!·)

/-- In a circuit that is built up, all wires but gate outputs are seen as they are. -/
theorem Complemented.seen?_eq (h : Complemented c) (ho : c.origin ≠ .netlist)
    (hg : c.isGateOutput w = false) : c.wires.seen? w = c.wires.raw? w := by
  cases hw : c.wires.contains w with
  | false =>
    rw [WireStore.seen?_eq, WireStore.raw?_of_not_contains hw, WireStore.polarity?_of_not_contains hw]
    rfl
  | true =>
    rw [WireStore.seen?_eq, h.plain ho w hw hg]
    cases c.wires.raw? w <;> simp [Polarity.resolve]

/-- Only a circuit that is built up has complements of inputs. -/
theorem Complemented.built (h : Complemented c) {p : Nat × Nat} (hp : p ∈ c.inputComplements) :
    c.origin ≠ .netlist := by
  intro ho
  rw [(h.unpaired ho).2] at hp
  cases hp

theorem Complemented.seen?_input (h : Complemented c) {p : Nat × Nat} (hp : p ∈ c.inputComplements) :
    c.wires.seen? p.1 = c.wires.raw? p.1 :=
  h.seen?_eq (h.built hp) (h.input_undriven _ (h.complement_of_input p hp))

/-- The complement of an input is in step with the input once it is built. -/
theorem Growth.inStep (h : Complemented c) (step : Growth c d) {p : Nat × Nat}
    (hp : p ∈ d.inputComplements) (hnew : p ∉ c.inputComplements) : InStep d.wires p := by
  cases step with
  | @inputComplement w cell can memo hc hi =>
    obtain rfl := (mem_inputComplements.mp hp).resolve_right hnew
    have hreg : c.wires.contains w = true := WireStore.contains_iff.mpr ⟨cell, hc⟩
    have hseen : cell.effective = c.wires.raw? w := by
      rw [← h.seen?_eq can.origin (h.input_undriven w hi), WireStore.seen?, hc, Option.bind_some]
    rw [InStep, (Growth.inputComplement can memo hc hi).raw? hreg, ← hseen]
    exact (WireStore.raw?_put ..).trans (if_pos rfl)
  | _ => exact absurd hp hnew

theorem InStep.growth (h : Complemented c) (step : Growth c d) {p : Nat × Nat}
    (hp : p ∈ c.inputComplements) (hs : InStep c.wires p) : InStep d.wires p := by
  rw [InStep, step.raw? (h.complement_registered p hp),
    step.raw? (h.input_registered _ (h.complement_of_input p hp))]
  exact hs

/-- Nothing is built where a wire may be written. -/
theorem Change.inputComplements {written : Nat → Prop} (hw : written w) (step : Change written c d) :
    d.inputComplements = c.inputComplements := by
  cases step with
  | growth hn g => exact absurd hw (hn w)
  | output hc ho => rfl
  | write value hv hc => rfl

/-- An operation leads to the pairs that were there and to new ones that are in step. -/
theorem Operated.pairs (h : Complemented c) (hop : Operated c d) :
    ∀ p ∈ d.inputComplements, p ∈ c.inputComplements ∨ InStep d.wires p := by
  obtain ⟨op, hop⟩ := hop
  have hsteps := changes_run op hop
  by_cases hw : ∃ w, op.Writes w
  · obtain ⟨w, hw⟩ := hw
    have hsame : d.inputComplements = c.inputComplements :=
      Change.preserves (P := fun e => e.inputComplements = c.inputComplements)
        (fun _ _ step he => (step.inputComplements hw).trans he) hsteps rfl
    intro p hp
    exact .inl (hsame ▸ hp)
  · refine (Change.preserves (P := fun e => Complemented e ∧
      ∀ p ∈ e.inputComplements, p ∈ c.inputComplements ∨ InStep e.wires p) ?_ hsteps
      ⟨h, fun p hp => .inl hp⟩).2
    rintro e e' step ⟨he, hpairs⟩
    refine ⟨he.change step, fun p hp => ?_⟩
    cases step with
    | growth hn g =>
      by_cases hold : p ∈ e.inputComplements
      · exact (hpairs p hold).imp_right (InStep.growth he g hold)
      · exact .inr (g.inStep he hp hold)
    | output hc ho => exact hpairs p hp
    | write value hv hc => exact absurd ⟨_, hv⟩ hw

/-! ### Steady circuits -/

/-- Executing writes gate outputs and complements of inputs alone. -/
theorem WellFormed.raw?_execute (h : WellFormed c) (hg : c.isGateOutput w = false)
    (hp : ∀ p ∈ c.inputComplements, p.2 ≠ w) : c.execute.state.wires.raw? w = c.wires.raw? w := by
  refine h.raw?_settle ?_
  rintro (hd | ⟨p, hmem, he, -⟩)
  · rw [hg] at hd
    cases hd
  · exact hp p hmem he

theorem WellFormed.raw?_execute_input (h : WellFormed c) (hi : c.isInput w = true) :
    c.execute.state.wires.raw? w = c.wires.raw? w := by
  refine h.raw?_execute (h.input_undriven w hi) fun p hp he => ?_
  rw [← he, (h.complement_undriven p hp).1] at hi
  cases hi

/-- A circuit that is built up, in which the complement of an unknown input is unknown. -/
structure Steady (c : Circuit) : Prop extends Complemented c where
  origin_ne : c.origin ≠ .netlist
  quiet : ∀ p ∈ c.inputComplements, c.wires.raw? p.1 = none → c.wires.raw? p.2 = none

namespace Steady

theorem empty : Steady {} where
  toComplemented := .empty
  origin_ne := nofun
  quiet := by simp

/-- Executing brings every complement of an input in step with the input, whether it succeeds or not. -/
theorem execute_inStep (h : Steady c) {p : Nat × Nat} (hp : p ∈ c.inputComplements) :
    InStep c.execute.state.wires p := by
  have wf := h.toWellFormed
  have hundriven := wf.notDriven_iff.mpr (wf.complement_undriven p hp).2
  have hraw : c.execute.state.wires.raw? p.2 =
      ((c.wires.raw? p.1).map (!·)).or (c.wires.raw? p.2) := by
    rw [← h.seen?_input hp, ← raw?_refresh wf.apart wf.complement_registered p hp]
    show c.settle.state.raw? p.2 = c.refreshed.raw? p.2
    rw [wf.settle_eq, raw?_pass hundriven]
  rw [InStep, hraw, wf.raw?_execute_input (wf.complement_of_input p hp)]
  cases hx : c.wires.raw? p.1 with
  | some x => rfl
  | none => exact h.quiet p hp hx

theorem supplies (h : Steady c) (hs : Supplies c d) : Steady d := by
  have hop : Operated c d := (Proceeds.supplied hs).operated
  obtain ⟨-, -, -, hsame⟩ := hs
  refine {
    toComplemented := (h.operated hop).1
    origin_ne := fun hn => h.origin_ne (hop.netlist_iff.mp hn)
    quiet := fun p hp hnone => ?_ }
  rcases hop.pairs h.toComplemented p hp with hold | hstep
  · rw [hsame p.2 (h.complement_registered p hold) (h.complement_undriven p hold).1]
    refine h.quiet p hold ?_
    by_contra hknown
    exact hop.raw?_known hknown hnone
  · rw [hstep, hnone]
    rfl

theorem executed (h : Steady c) : Steady c.execute.state where
  toComplemented := (h.operated Proceeds.executed.operated).1
  origin_ne := h.origin_ne
  quiet p hp hnone := by
    rw [h.execute_inStep hp, hnone]
    rfl

theorem proceeds (h : Steady c) (step : Proceeds c d) : Steady d := by
  cases step with
  | supplied hs => exact h.supplies hs
  | executed => exact h.executed

end Steady

theorem Supplied.steady (h : Supplied c) : Steady c := by
  induction h with
  | refl => exact .empty
  | tail _ step ih => exact ih.proceeds step

/-! ### Opposite values -/

/-- Two gates of one function over the same wires have one raw value after an execution that succeeds,
so under opposite polarities they are seen opposite. -/
theorem WellFormed.opposite_gates (h : WellFormed c) (hok : c.execute.failure = none) {g k : Gate}
    {p q : Polarity} (hg : c.gate? w = some g) (hk : c.gate? v = some k)
    (hf : k.function = g.function) (ha : k.a = g.a) (hb : k.b = g.b)
    (hp : c.wires.polarity? w = some p) (hq : c.wires.polarity? v = some q)
    (hi : q.inverted = (!p.inverted)) :
    ∃ x, c.execute.state.wires.seen? w = some x ∧ c.execute.state.wires.seen? v = some !x := by
  obtain ⟨a, b, ha₁, hb₁, hw⟩ := h.settle_gate hok hg
  obtain ⟨a', b', ha₂, hb₂, hv⟩ := h.settle_gate hok hk
  rw [ha, ha₁] at ha₂
  rw [hb, hb₁] at hb₂
  cases ha₂
  cases hb₂
  have hsame : k.eval a b = g.eval a b := by rw [Gate.eval, hf]; rfl
  refine ⟨p.resolve (g.eval a b), ?_, ?_⟩
  · show c.settle.state.seen? w = _
    rw [WireStore.seen?_eq, h.polarity?_settle, hp, hw]
    rfl
  · show c.settle.state.seen? v = _
    rw [WireStore.seen?_eq, h.polarity?_settle, hq, hv, hsame]
    simp [Polarity.resolve, hi]

/-- After an execution that succeeds, the wires of a pair are seen opposite. -/
theorem Steady.opposite (h : Steady c) (hp : Paired c w v) (hok : c.execute.failure = none) :
    c.execute.state.wires.seen? v = (c.execute.state.wires.seen? w).map (!·) := by
  have follows : ∀ {w v}, Follows c w v →
      c.execute.state.wires.seen? v = (c.execute.state.wires.seen? w).map (!·) := by
    intro w v f
    have hseen : ∀ {u}, c.isGateOutput u = false →
        c.execute.state.wires.seen? u = c.execute.state.wires.raw? u :=
      h.executed.seen?_eq h.executed.origin_ne
    rw [hseen f.not_driven, hseen (h.input_undriven w f.input)]
    exact h.execute_inStep f.recorded
  cases hp with
  | input f => exact follows f
  | complement f =>
    rw [follows f]
    cases c.execute.state.wires.seen? v <;> simp
  | gates hg hk hf ha hb hp hq hi =>
    obtain ⟨x, hx, hy⟩ := h.opposite_gates hok hg hk hf ha hb hp hq hi
    rw [hx, hy]
    rfl

/-- The wire holds a bit, and is no input, no gate output and no complement of an input. -/
structure Constant (c : Circuit) (w : Nat) (bit : Bool) : Prop where
  not_input : c.isInput w = false
  not_driven : c.isGateOutput w = false
  not_complement : ∀ p ∈ c.inputComplements, p.2 ≠ w
  holds : c.wires.raw? w = some bit

namespace Constant

theorem registered (h : Constant c w bit) : c.wires.contains w = true := by
  obtain ⟨cell, hc, -⟩ := Option.bind_eq_some_iff.mp h.holds
  exact WireStore.contains_iff.mpr ⟨cell, hc⟩

/-- A constant stays one, with its bit. -/
theorem proceeds (wf : WellFormed c) (h : Constant c w bit) (step : Proceeds c d) :
    Constant d w bit := by
  have keeps := step.operated.keeps
  have hreg := h.registered
  refine {
    not_input := (keeps.isInput w hreg).trans h.not_input
    not_driven := (keeps.isGateOutput hreg).trans h.not_driven
    not_complement := fun p hp he => h.not_complement p ((keeps.recorded p (he ▸ hreg)).mp hp) he
    holds := ?_ }
  cases step with
  | supplied hs =>
    obtain ⟨-, -, -, hsame⟩ := hs
    rw [hsame w hreg h.not_input, h.holds]
  | executed => rw [wf.raw?_execute h.not_driven h.not_complement, h.holds]

/-- A wire that is issued with a bit is a constant. -/
theorem issue (wf : WellFormed c) (can : c.CanIssue) (bit : Bool) :
    Constant (c.issue false (some bit)) c.nextWire bit where
  not_input := (wf.idle can.unused).not_input
  not_driven := (wf.idle can.unused).not_driven
  not_complement := (wf.idle can.unused).not_complement
  holds := (WireStore.raw?_put ..).trans (if_pos rfl)

/-- No complement of a constant is remembered. -/
theorem complement? (h : Constant c w bit) (hc : Complemented c) : c.complement? w = none := by
  refine Option.eq_none_iff_forall_ne_some.mpr fun v hv => ?_
  cases hc.paired w v hv with
  | input f => exact Bool.false_ne_true (h.not_input.symm.trans f.input)
  | complement f => exact h.not_complement _ f.recorded rfl
  | gates hg =>
    have hd := h.not_driven
    rw [isGateOutput_eq, hg] at hd
    cases hd

/-- The complement of a constant is a new constant. -/
theorem invert (hc : Complemented c) (ho : c.origin ≠ .netlist) (h : Constant c w bit) :
    Build.invert w c = .ok (c.nextWire, c.issue false (some !bit)) := by
  obtain ⟨cell, hcell⟩ := WireStore.contains_iff.mp h.registered
  have hbit : cell.effective = some bit := by
    rw [← h.holds, ← hc.seen?_eq ho h.not_driven, WireStore.seen?, hcell, Option.bind_some]
  have hg : c.gate? w = none := by
    have hd := h.not_driven
    rwa [isGateOutput_eq, Option.isSome_eq_false_iff, Option.isNone_iff_eq_none] at hd
  exact Build.invert_ok_iff.mpr (.inr ⟨h.complement? hc, hc.canIssue ho, rfl, cell, hcell,
    .inr (.inr ⟨h.not_input, hg, bit, hbit, rfl⟩)⟩)

theorem opposite (hs : Steady c) (h : Constant c w bit) (h' : Constant c v !bit) :
    c.execute.state.wires.seen? v = (c.execute.state.wires.seen? w).map (!·) := by
  have hw := h.proceeds hs.toWellFormed .executed
  have hv := h'.proceeds hs.toWellFormed .executed
  rw [hs.executed.seen?_eq hs.executed.origin_ne hw.not_driven, hw.holds,
    hs.executed.seen?_eq hs.executed.origin_ne hv.not_driven, hv.holds]
  rfl

end Constant

/-! ### Inverting and going on -/

theorem value_ok_iff {x : Option Bool} :
    c.value w = .ok x ↔ c.wires.contains w = true ∧ x = c.wires.seen? w := by
  rw [value, mapError_ok_iff, WireStore.effective_ok_iff]

/-- The circuits that a supplied one proceeds to are supplied, and nothing that was there is lost. -/
theorem Supplied.proceeds (h : Supplied c) (hd : ReflTransGen Proceeds c d) :
    Supplied d ∧ ReflTransGen Operated c d :=
  ⟨h.trans hd, ReflTransGen.mono (fun _ _ => Proceeds.operated) _ _ hd⟩

theorem Constant.later (h : Supplied c) (hk : Constant c w bit) (hd : ReflTransGen Proceeds c d) :
    Constant d w bit := by
  induction hd with
  | refl => exact hk
  | tail hd step ih =>
    obtain ⟨hs, -⟩ := h.proceeds hd
    exact ih.proceeds hs.steady.toWellFormed step

/-- Inverting a wire supplies the circuit. -/
theorem supplies_invert {n : Nat} (h : Build.invert w c = .ok (n, d)) : Supplies c d :=
  supplies_build (.invert w) (Build.map_ok_iff.mpr ⟨n, h, rfl⟩)

/-- Registered wires that are seen opposite have opposite values. -/
theorem opposite_values {n : Nat} (hw : c.wires.contains w = true) (hn : c.wires.contains n = true)
    (h : c.execute.state.wires.seen? n = (c.execute.state.wires.seen? w).map (!·)) :
    ∃ x, c.execute.state.value w = .ok x ∧ c.execute.state.value n = .ok (x.map (!·)) := by
  have keeps := (Proceeds.executed (c := c)).operated.keeps
  exact ⟨_, value_ok_iff.mpr ⟨keeps.contains hw, rfl⟩, value_ok_iff.mpr ⟨keeps.contains hn, h.symm⟩⟩

/-- A complement that is remembered has the opposite value after every later execution that
succeeds. -/
theorem Supplied.invert_paired {n : Nat} (h : Supplied c) (hm : c.complement? w = some n)
    (hd : ReflTransGen Proceeds c d) (hok : d.execute.failure = none) :
    ∃ x, d.execute.state.value w = .ok x ∧ d.execute.state.value n = .ok (x.map (!·)) := by
  obtain ⟨hs, hops⟩ := h.proceeds hd
  have hpair := hs.steady.paired w n ((h.steady.operations hops).2 w n hm)
  obtain ⟨hw, hn⟩ := hpair.registered hs.steady.toWellFormed
  exact opposite_values hw hn (hs.steady.opposite hpair hok)

theorem Supplied.invert_constant {n : Nat} (h : Supplied c) (hw : Constant c w bit)
    (hn : Constant c n !bit) (hd : ReflTransGen Proceeds c d) :
    ∃ x, d.execute.state.value w = .ok x ∧ d.execute.state.value n = .ok (x.map (!·)) := by
  have hw := hw.later h hd
  have hn := hn.later h hd
  exact opposite_values hw.registered hn.registered (hw.opposite (h.proceeds hd).1.steady hn)

/-- In a circuit that is built up the remembered complements are pairs, each wire in one of them at
most. The complement of an input, a gate output or the complement of an input is remembered for ever, in
both directions. And as long as values are given to inputs alone, the complement of such a wire or of a
constant has the opposite value after every execution that succeeds, or none if the wire has none. -/
theorem invert_involution (hc : Reachable c) (ho : c.origin ≠ .netlist) :
    (∀ w v, c.complement? w = some v →
      c.complement? v = some w ∧ w ≠ v ∧ (∀ u, c.complement? u = some v → u = w) ∧
        Paired c w v) ∧
    (∀ w, Invertible c w → ∃ n c₁, Build.invert w c = .ok (n, c₁) ∧
      ∀ d, ReflTransGen Operated c₁ d →
        Build.invert w d = .ok (n, d) ∧ Build.invert n d = .ok (w, d)) ∧
    (Supplied c → ∀ w, (Invertible c w ∨ ∃ bit, Constant c w bit) →
      ∃ n c₁, Build.invert w c = .ok (n, c₁) ∧
        ∀ d, ReflTransGen Proceeds c₁ d → d.execute.failure = none →
          ∃ x, d.execute.state.value w = .ok x ∧ d.execute.state.value n = .ok (x.map (!·))) := by
  have h := hc.complemented
  refine ⟨fun w v hm => ?_, fun w hw => ?_, fun hs w hw => ?_⟩
  · exact ⟨h.symm w v hm, (h.paired w v hm).ne, fun u hu => h.injective hu hm, h.paired w v hm⟩
  · obtain ⟨n, c₁, hn, h₁, hm⟩ := h.invert_ok ho hw
    refine ⟨n, c₁, hn, fun d hd => ?_⟩
    obtain ⟨h', hkept⟩ := h₁.operations hd
    exact ⟨invert_known (hkept w n hm), invert_known (h'.symm w n (hkept w n hm))⟩
  · rcases hw with hw | ⟨bit, hw⟩
    · obtain ⟨n, c₁, hn, -, hm⟩ := h.invert_ok ho hw
      have hs₁ : Supplied c₁ := hs.supplies (supplies_invert hn)
      exact ⟨n, c₁, hn, fun d hd hok => hs₁.invert_paired hm hd hok⟩
    · have hn := hw.invert h ho
      have hs₁ := hs.supplies (supplies_invert hn)
      have hw₁ := hw.proceeds h.toWellFormed (.supplied (supplies_invert hn))
      have hn₁ := Constant.issue h.toWellFormed (h.canIssue ho) !bit
      exact ⟨_, _, hn, fun d hd _ => Supplied.invert_constant hs₁ hw₁ hn₁ hd⟩

/-- An input that has a value is inverted, given the other value, and executed. -/
theorem invert_involution_reassigned :
    ∃ c c₁ d, Supplied c ∧ Build.invert 0 c = .ok (1, c₁) ∧ Supplies c₁ d ∧
      Build.invert 1 d = .ok (0, d) ∧ d.execute.state.value 0 = .ok (some false) ∧
      d.execute.state.value 1 = .ok (some true) := by
  obtain ⟨c, hs, ho, hi, c₁, hinv, d, hd, hok, hvalue⟩ : ∃ c, Supplied c ∧ c.origin = .synthesis ∧
      c.isInput 0 = true ∧ ∃ c₁, Build.invert 0 c = .ok (1, c₁) ∧ ∃ d, Supplies c₁ d ∧
      d.execute.failure = none ∧ d.execute.state.value 0 = .ok (some false) := by
    have hinput := Supplied.empty.supplies (supplies_build .issueInput rfl)
    have htrue := hinput.supplies
      (supplies_of_assigns (.assign 0 true) nofun rfl fun w hw _ => by cases hw; rfl)
    exact ⟨_, htrue, rfl, rfl, _, rfl, _,
      supplies_of_assigns (.assign 0 false) nofun rfl fun w hw _ => by cases hw; rfl, rfl, rfl⟩
  obtain ⟨-, hmemo, hvalues⟩ := invert_involution hs.reachable (by simp [ho])
  obtain ⟨n, e, hn, hback⟩ := hmemo 0 (.inl hi)
  obtain ⟨m, e', hm, hlater⟩ := hvalues hs 0 (.inl (.inl hi))
  rw [hinv] at hn hm
  cases hn
  cases hm
  obtain ⟨x, hx, hopp⟩ := hlater d (.single (.supplied hd)) hok
  rw [hvalue] at hx
  cases hx
  exact ⟨c, c₁, d, hs, hinv, hd, (hback d (.single (Proceeds.supplied hd).operated)).2, hvalue, hopp⟩

end GateNet.Circuit
