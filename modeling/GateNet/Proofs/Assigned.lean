import GateNet.Proofs.Extension
import GateNet.Proofs.Signal

/-!
Values for the inputs of a circuit and of one that was built from it. If the old circuit is executed to
the end, what readers see then is a valuation under which its gates read operands; so the new gates can be
evaluated as well, if they read operands under that valuation, and the new circuit is executed to the end.
-/

namespace GateNet.Circuit

variable {c d c₁ d₁ : Circuit} {v : Nat → Option Bool} {w : Nat}

/-- The second circuit is the first one with values for some of its inputs. -/
structure Assigned (c d : Circuit) : Prop extends SameStructure c d where
  known : ∀ w, c.wires.raw? w ≠ none → d.wires.raw? w ≠ none
  kept : ∀ w, c.isInput w = false → d.wires.raw? w = c.wires.raw? w

/-- One input is given a value. -/
theorem Assigned.write (hd : Assigned c d) (hi : c.isInput w = true) (hw : d.wires.contains w = true)
    (x : Bool) : Assigned c { d with wires := d.wires.write w x } where
  polarity? v := (WireStore.polarity?_write ..).trans (hd.polarity? v)
  rest := by rw [hd.rest]
  known v hv := by
    by_cases he : w = v
    · rw [← he, WireStore.raw?_write_self hw]
      exact Option.some_ne_none x
    · rw [WireStore.raw?_write_of_ne he]
      exact hd.known v hv
  kept v hv := by
    rw [WireStore.raw?_write_of_ne, hd.kept v hv]
    rintro rfl
    exact Bool.false_ne_true (hv.symm.trans hi)

theorem Assigned.assignAll (h : WellFormed c) {values : List (Nat × Bool)}
    (hvalues : ∀ value ∈ values, c.isInput value.1 = true) (hd : c.assignAll values = ⟨d, none⟩) :
    Assigned c d := by
  suffices hall : ∀ e, Assigned c e → e.assignAll values = ⟨d, none⟩ → Assigned c d from
    hall c ⟨.refl c, fun _ => id, fun _ _ => rfl⟩ hd
  clear hd
  induction values with
  | nil =>
    intro e he hd
    cases hd
    exact he
  | cons value rest ih =>
    intro e he hd
    have hi := hvalues value (List.mem_cons_self ..)
    have hreg := (he.contains _).trans (h.input_registered _ hi)
    rw [Circuit.assignAll, runSteps_cons_ok (assign_ok_iff.mpr ⟨hreg, rfl⟩)] at hd
    exact ih (fun v hv => hvalues v (List.mem_cons_of_mem value hv)) _ (he.write hi hreg value.2) hd

/-- Executing leaves inputs as they are. -/
theorem WellFormed.seen_input_iff (h : WellFormed c) (hi : c.isInput w = true) :
    c.execute.state.wires.seen? w ≠ none ↔ c.wires.raw? w ≠ none := by
  rw [Ne, WireStore.seen?_eq_none_iff, h.raw?_execute_input hi]

/-- If the circuit is executed to the end, its gates read operands. -/
theorem Assigned.lively (hd : Assigned c d) (h : WellFormed c) (hok : d.execute.failure = none) :
    Lively c d.execute.state.wires.seen? := by
  have wf : WellFormed d := h.sameStructure hd.toSameStructure
  have hinput : ∀ {w}, c.isInput w = true → d.wires.raw? w ≠ none →
      d.execute.state.wires.seen? w ≠ none := by
    intro w hi
    exact (wf.seen_input_iff ((hd.isInput w).trans hi)).mpr
  intro w hw
  cases hdriven : c.isGateOutput w with
  | true => exact .inr (.driven hdriven)
  | false =>
    have hsourced : Sourced d w := by
      by_contra hs
      have hlacking : Lacking d w := ⟨(hd.isGateOutput w).trans hdriven, hs⟩
      exact wf.not_lacking hok (hd.isRead_iff.mpr hw) hlacking
    rcases hsourced with hknown | ⟨p, hp, rfl, hknown⟩
    · cases hi : c.isInput w with
      | true => exact .inr (.input hi (hinput hi hknown))
      | false => exact .inl (hd.kept w hi ▸ hknown)
    · have hp : p ∈ c.inputComplements := hd.inputComplements ▸ hp
      exact .inr (.complement hp rfl (hinput (h.complement_of_input p hp) hknown))

/-- If the old circuit is executed to the end, the one that was built from it is, with the same values for
the old inputs. -/
theorem Advance.executes (adv : Advance c₁.execute.state.wires.seen? c d) (hc₁ : Assigned c c₁)
    (hd₁ : Assigned d d₁) (hraw : ∀ w, c.isInput w = true → d₁.wires.raw? w = c₁.wires.raw? w)
    (hok : c₁.execute.failure = none) : d₁.execute.failure = none := by
  have h := adv.start.toWellFormed
  have wf : WellFormed c₁ := h.sameStructure hc₁.toSameStructure
  have hsame : SameStructure c c₁.execute.state := hc₁.trans wf.sameGiven_settle.toSameStructure
  have wf' : WellFormed d₁ := adv.built.toWellFormed.sameStructure hd₁.toSameStructure
  have hlively := adv.lively (hc₁.lively h hok)
  refine wf'.execute_succeeds hd₁.toSameStructure hd₁.known hlively fun w hi hv => ?_
  -- the valuation knows wires of the old circuit only
  obtain ⟨x, hx⟩ := Option.ne_none_iff_exists'.mp hv
  have hreg : c.wires.contains w = true := (hsame.contains w).symm.trans (WireStore.contains_of_seen? hx)
  have hi' : c.isInput w = true := (adv.remains.isInput w hreg).symm.trans hi
  rw [hraw w hi']
  exact (wf.seen_input_iff ((hc₁.isInput w).trans hi')).mp hv

end GateNet.Circuit
