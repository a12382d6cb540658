import GateNet.Proofs.Signal

/-!
Executions to come. A circuit may be built on, given values for its inputs and executed, again and
again, and everything in it remains. What an execution that succeeds leaves is a valuation that respects
the circuit, once an input without a value is taken to be opposite to a complement that has one. So the
bits that wires carry are those that readers see on them, on all wires that every execution writes.
-/

namespace GateNet.Circuit

open Relation

variable {c d e : Circuit} {w n : Nat} {x y : Bool}

/-- The second circuit is what an execution leaves that succeeds, after the first one may have been
built on, executed and given values for its inputs. -/
def Later (c e : Circuit) : Prop :=
  ∃ d, ReflTransGen Proceeds c d ∧ d.execute.failure = none ∧ d.execute.state = e

/-- What readers see on a wire or, if they see nothing, the opposite of what they see on its
complement. -/
def mended (c : Circuit) (w : Nat) : Option Bool :=
  (c.wires.seen? w).or (((c.complement? w).bind c.wires.seen?).map (!·))

theorem mended_of_seen (h : c.wires.seen? w = some x) : c.mended w = some x := by
  rw [mended, h, Option.some_or]

theorem mended_known (hm : c.complement? w = some n) (hn : c.wires.seen? n = some x) :
    c.mended w ≠ none := by
  rw [mended, hm, Option.bind_some, hn]
  cases c.wires.seen? w <;> simp

/-! ### What an execution leaves -/

/-- After an execution that succeeds, the wires of a pair are seen opposite if both are seen. -/
theorem Buildable.opposite (h : Buildable c) (hp : Paired c w n) (hok : c.execute.failure = none)
    (hx : c.execute.state.wires.seen? w = some x) (hy : c.execute.state.wires.seen? n = some y) :
    y = !x := by
  have hexecuted := (h.operated Proceeds.executed.operated).1
  have follows : ∀ {w n x y}, Follows c w n → c.execute.state.wires.seen? w = some x →
      c.execute.state.wires.seen? n = some y → y = !x := by
    intro w n x y f hx hy
    rw [hexecuted.seen?_eq h.origin_ne f.not_driven] at hy
    have hraw : c.execute.state.wires.raw? n = some !x :=
      (h.settle_solution hok).1.complement _ f.recorded x hx
    rw [hraw] at hy
    exact (Option.some.inj hy).symm
  cases hp with
  | input f => exact follows f hx hy
  | complement f => rw [follows f hy hx, Bool.not_not]
  | gates hg hk hf ha hb hp hq hi =>
    obtain ⟨z, hz, hz'⟩ := h.opposite_gates hok hg hk hf ha hb hp hq hi
    rw [hx] at hz
    rw [hy] at hz'
    cases hz
    exact Option.some.inj hz'

/-- What an execution that succeeds leaves respects the circuit. -/
theorem Buildable.respects (h : Buildable c) (hok : c.execute.failure = none) :
    Respects c c.execute.state.mended where
  gate w g p hg hp := by
    obtain ⟨a, b, ha, hb, hw⟩ := h.settle_gate hok hg
    have hseen : c.execute.state.wires.seen? w = some (p.resolve (g.eval a b)) := by
      show c.settle.state.seen? w = _
      rw [WireStore.seen?_eq, h.polarity?_settle, hp, hw]
      rfl
    have ha : c.execute.state.mended g.a = some a := mended_of_seen ha
    have hb : c.execute.state.mended g.b = some b := mended_of_seen hb
    rw [mended_of_seen hseen, ha, hb]
    rfl
  pair w n hm := by
    have hm' : c.execute.state.complement? w = some n := hm
    have hback : c.execute.state.complement? n = some w := h.symm w n hm
    rw [mended, mended, hm', hback, Option.bind_some, Option.bind_some]
    cases hx : c.execute.state.wires.seen? w with
    | none => cases c.execute.state.wires.seen? n <;> simp
    | some x =>
      cases hy : c.execute.state.wires.seen? n with
      | none => simp
      | some y => simp [h.opposite (h.paired w n hm) hok hx hy]
  constant w bit hw := by
    have hc := hw.proceeds h.toWellFormed .executed
    have hexecuted := (h.operated Proceeds.executed.operated).1
    refine mended_of_seen ?_
    rw [hexecuted.seen?_eq h.origin_ne hc.not_driven, hc.holds]

/-- In a steady circuit there is nothing to mend. -/
theorem Steady.respects (h : Steady c) (hok : c.execute.failure = none) :
    Respects c c.execute.state.wires.seen? := by
  have hsame : c.execute.state.mended = c.execute.state.wires.seen? := by
    funext w
    rw [mended]
    cases hm : c.execute.state.complement? w with
    | none => simp
    | some n =>
      rw [Option.bind_some, h.opposite (h.paired w n hm) hok]
      cases c.execute.state.wires.seen? w <;> simp
  rw [← hsame]
  exact h.buildable.respects hok

/-! ### What comes later -/

theorem Buildable.proceeds (h : Buildable c) (hd : ReflTransGen Proceeds c d) :
    Buildable d ∧ Remains c d := by
  induction hd with
  | refl => exact ⟨h, .refl c⟩
  | tail _ step ih =>
    obtain ⟨hb, hremains⟩ := ih
    exact ⟨⟨(hb.operated step.operated).1, fun hn => hb.origin_ne (step.operated.netlist_iff.mp hn)⟩,
      hremains.trans (step.remains hb.toComplemented)⟩

theorem Steady.later (h : Steady c) (hd : ReflTransGen Proceeds c d) : Steady d := by
  induction hd with
  | refl => exact h
  | tail _ step ih => exact ih.proceeds step

namespace Later

theorem remains (he : Later c e) (h : Buildable c) : Remains c e := by
  obtain ⟨d, hd, -, rfl⟩ := he
  obtain ⟨hb, hremains⟩ := h.proceeds hd
  exact hremains.trans (Proceeds.executed.remains hb.toComplemented)

theorem respects (he : Later c e) (h : Buildable c) : Respects c e.mended := by
  obtain ⟨d, hd, hok, rfl⟩ := he
  obtain ⟨hb, hremains⟩ := h.proceeds hd
  exact hremains.respects h.toWellFormed (hb.respects hok)

end Later

/-- A usable wire that has a value then is an operand. -/
theorem Usable.operand_of_seen (hw : Usable c w) (h : Buildable c) (he : Remains c e)
    (hx : e.wires.seen? w = some x) : Operand c e.mended w := by
  refine hw.operand (mended_of_seen hx ▸ Option.some_ne_none x) ?_
  rintro p hp rfl
  exact mended_known (he.complement? _ _ (h.remembered p hp)) hx

/-! ### Wires that every execution settles -/

/-- The wire is a gate output or a constant. -/
def Settled (c : Circuit) (w : Nat) : Prop := c.isGateOutput w = true ∨ ∃ bit, Constant c w bit

theorem Settled.remains (hw : Settled c w) (h : WellFormed c) (hd : Remains c d) : Settled d w := by
  rcases hw with hg | ⟨bit, hc⟩
  · exact .inl ((hd.isGateOutput (h.registered_of_driven hg)).trans hg)
  · exact .inr ⟨bit, hd.constant w bit hc⟩

/-- Such a wire is seen after every execution that succeeds. -/
theorem Settled.seen (hw : Settled c w) (h : Buildable c) (he : Later c e) :
    e.wires.seen? w = e.mended w := by
  obtain ⟨d, hd, hok, rfl⟩ := he
  obtain ⟨hb, hremains⟩ := h.proceeds hd
  suffices hseen : ∃ x, d.execute.state.wires.seen? w = some x by
    obtain ⟨x, hx⟩ := hseen
    rw [hx, mended_of_seen hx]
  rcases hw.remains h.toWellFormed hremains with hg | ⟨bit, hc⟩
  · rw [isGateOutput_eq, Option.isSome_iff_exists] at hg
    obtain ⟨g, hg⟩ := hg
    obtain ⟨a, b, -, -, hraw⟩ := hb.settle_gate hok hg
    refine Option.ne_none_iff_exists'.mp fun hnone => ?_
    have hraw' : d.execute.state.wires.raw? w = some (g.eval a b) := hraw
    rw [WireStore.seen?_eq_none_iff, hraw'] at hnone
    cases hnone
  · have hc := hc.proceeds hb.toWellFormed .executed
    refine Option.ne_none_iff_exists'.mp fun hnone => ?_
    rw [WireStore.seen?_eq_none_iff, hc.holds] at hnone
    cases hnone

/-! ### Wires that gates consult -/

/-- A gate reads the wire or its complement, or the wire is a constant. -/
def Consulted (c : Circuit) (w : Nat) : Prop :=
  IsRead c w ∨ (∃ n, c.complement? w = some n ∧ IsRead c n) ∨ ∃ bit, Constant c w bit

theorem IsRead.remains (hw : IsRead c w) (h : WellFormed c) (hd : Remains c d) : IsRead d w := by
  obtain ⟨v, g, hg, hw⟩ := hw
  exact ⟨v, g, (hd.gate? v (h.gate_registered v g hg).1).trans hg, hw⟩

theorem Consulted.remains (hw : Consulted c w) (h : WellFormed c) (hd : Remains c d) :
    Consulted d w := by
  rcases hw with hr | ⟨n, hm, hr⟩ | ⟨bit, hc⟩
  · exact .inl (hr.remains h hd)
  · exact .inr (.inl ⟨n, hd.complement? w n hm, hr.remains h hd⟩)
  · exact .inr (.inr ⟨bit, hd.constant w bit hc⟩)

/-- An execution that succeeds has met the wire, so the wire has a value. -/
theorem Steady.seen_of_consulted (h : Steady c) (hok : c.execute.failure = none)
    (hw : Consulted c w) : ∃ x, c.execute.state.wires.seen? w = some x := by
  have hread : ∀ {n}, IsRead c n → ∃ x, c.execute.state.wires.seen? n = some x := by
    rintro n ⟨v, g, hg, rfl | rfl⟩
    · obtain ⟨a, -, ha, -⟩ := h.settle_gate hok hg
      exact ⟨a, ha⟩
    · obtain ⟨-, b, -, hb, -⟩ := h.settle_gate hok hg
      exact ⟨b, hb⟩
  rcases hw with hr | ⟨n, hm, hr⟩ | ⟨bit, hc⟩
  · exact hread hr
  · obtain ⟨x, hx⟩ := hread hr
    rw [h.opposite (h.paired w n hm) hok, Option.map_eq_some_iff] at hx
    obtain ⟨y, hy, -⟩ := hx
    exact ⟨y, hy⟩
  · have hc := hc.proceeds h.toWellFormed .executed
    exact ⟨bit, by rw [h.executed.seen?_eq h.origin_ne hc.not_driven, hc.holds]⟩

end GateNet.Circuit
