import GateNet.Proofs.Netlist.Reading

/-!
Why statements are refused. A statement is refused for what the statements before it say: the wire that
it declares is taken, an input of its gate is missing, or a wire would turn for the second time. A gate
can be refused for several reasons, and they count in this order, for the first input before the second.
When all statements are declared, an output without a driver counts before a gate that reads a later one.
So for every cause there is a condition on the statements alone, and the circuit refuses exactly so.
-/

namespace GateNet

open Circuit

namespace Netlist

variable {ss : List Statement} {s : Statement} {c : Circuit} {cause : Cause}

/-! ### The reasons -/

/-- No gate drives the wire yet, and it is no input. -/
def Undriven (before : List Statement) (w : Nat) : Prop := w ∉ driven before ∧ w ∉ inputs before

/-- A gate with this output cannot read the wire: it drives the wire itself, or nothing declares it. -/
def Missing (before : List Statement) (out w : Nat) : Prop := w = out ∨ w ∉ declared before

/-- Why a statement cannot be declared after others. The reasons against a gate come in the order in
which they count: each of them supposes that those above it do not hold. -/
inductive Refused (before : List Statement) : Statement → Cause → Prop
  | input {l : Literal} : l.wire ∈ declared before →
      Refused before (.input l) (.wire (.alreadyExists l.wire))
  | output {l : Literal} {seed : Option Bool} : l.wire ∈ (outputs before).map Literal.wire →
      Refused before (.output l seed) (.duplicateOutput l.wire)
  | driven {f : GateFunction} {out : Nat} {a b : Literal} : out ∈ driven before →
      Refused before (.gate f out a b) (.duplicateGate out)
  | drivesInput {f : GateFunction} {out : Nat} {a b : Literal} : out ∉ Netlist.driven before →
      out ∈ inputs before → Refused before (.gate f out a b) (.gateDrivesInput out)
  | firstMissing {f : GateFunction} {out : Nat} {a b : Literal} : Undriven before out →
      Missing before out a.wire → Refused before (.gate f out a b) (.missingInput out a.wire)
  | secondMissing {f : GateFunction} {out : Nat} {a b : Literal} : Undriven before out →
      ¬ Missing before out a.wire → Missing before out b.wire →
      Refused before (.gate f out a b) (.missingInput out b.wire)
  | firstTurned {f : GateFunction} {out : Nat} {a b : Literal} : Undriven before out →
      ¬ Missing before out a.wire → ¬ Missing before out b.wire →
      1 < changes (readAfter (polarities before) a a.wire) →
      Refused before (.gate f out a b) (.wire (.doubleInversion a.wire))
  | secondTurned {f : GateFunction} {out : Nat} {a b : Literal} : Undriven before out →
      ¬ Missing before out a.wire → ¬ Missing before out b.wire →
      changes (readAfter (polarities before) a a.wire) ≤ 1 →
      1 < changes (readAfter (readAfter (polarities before) a) b b.wire) →
      Refused before (.gate f out a b) (.wire (.doubleInversion b.wire))

/-- The wire is an input, is driven by a gate or is given a value. -/
def Driven (ss : List Statement) (w : Nat) : Prop := w ∈ inputs ss ∨ w ∈ driven ss ∨ seed? ss w ≠ none

/-- The wire is driven by a gate that is evaluated after the gate given. -/
def Later (ss : List Statement) (g : Gate) (w : Nat) : Prop := w ∈ driven ss ∧ g.out < w

/-- The wire is the first that the gate reads of those driven after it. -/
def FirstLater (ss : List Statement) (g : Gate) (w : Nat) : Prop :=
  (Later ss g g.a ∧ w = g.a) ∨ (¬ Later ss g g.a ∧ Later ss g g.b ∧ w = g.b)

/-- What is open when all statements are declared: the first output that is not driven, and if there is
none, the lowest gate that reads a later one. -/
inductive Incomplete (ss : List Statement) : Cause → Prop
  | undriven {before after : List Literal} {l : Literal} : outputs ss = before ++ l :: after →
      (∀ k ∈ before, Driven ss k.wire) → ¬ Driven ss l.wire → Incomplete ss (.undrivenOutput l.wire)
  | outOfOrder {g : Gate} {w : Nat} : (∀ l ∈ outputs ss, Driven ss l.wire) → g ∈ gates ss →
      (∀ k ∈ gates ss, k.out < g.out → ∀ v, ¬ FirstLater ss k v) → FirstLater ss g w →
      Incomplete ss (.outOfOrder g.out w)

/-! ### Statements -/

namespace Reads

theorem not_missing_iff (h : Reads ss c) {out w : Nat} :
    ¬ Missing ss out w ↔ w ≠ out ∧ c.wires.contains w = true := by
  rw [Missing, h.contains_iff, not_or, not_not]

/-- What is not missing is there when the output of the gate is registered. -/
theorem present (h : Reads ss c) {out w : Nat} (hw : ¬ Missing ss out w) :
    (c.wires.ensure out).contains w = true :=
  (WireStore.contains_ensure ..).mpr (.inr (h.not_missing_iff.mp hw).2)

theorem checkOperand_error (h : Reads ss c) {out w : Nat} (hw : Missing ss out w) :
    c.checkOperand out w = .error (.missingInput out w) :=
  if_pos (hw.imp_right fun hd => by rwa [h.contains_iff])

section Gate

variable {f : GateFunction} {out : Nat} {a b : Literal}

theorem declareGate_free (h : Reads ss c) (free : Undriven ss out) :
    c.declareGate f out a b = (do
      c.checkOperand out a.wire
      c.checkOperand out b.wire
      let d ← c.ensureWire out
      let d ← d.matchPolarity a
      let d ← d.matchPolarity b
      d.addDriver ⟨f, a.wire, b.wire, out⟩) := by
  have hg : ¬ c.isGateOutput out = true := fun hg => free.1 (h.isGateOutput_iff.mp hg)
  have hi : ¬ c.isInput out = true := fun hi => free.2 ((h.isInput out).mp hi)
  exact (if_neg hg).trans (if_neg hi)

/-- A gate that lacks no wire is declared by reading its two wires one after the other. -/
theorem declareGate_reads (h : Reads ss c) (free : Undriven ss out) (ha : ¬ Missing ss out a.wire)
    (hb : ¬ Missing ss out b.wire) :
    c.declareGate f out a b = (do
      let d ← matchPolarity { c with wires := c.wires.ensure out } a
      let d ← d.matchPolarity b
      d.addDriver ⟨f, a.wire, b.wire, out⟩) := by
  rw [h.declareGate_free free, checkOperand_ok_iff (u := ()).mpr (h.not_missing_iff.mp ha),
    checkOperand_ok_iff (u := ()).mpr (h.not_missing_iff.mp hb), ensureWire_ok_iff.mpr rfl]
  rfl

end Gate

/-- Each reason is reported as it stands. -/
theorem declare_refused (h : Reads ss c) (hr : Refused ss s cause) : c.declare s = .error cause := by
  cases hr with
  | @input l hl =>
    have hinsert : c.wires.insert l.wire ⟨none, ⟨l.inverted, false⟩⟩ = .error (.alreadyExists l.wire) :=
      if_pos (h.contains_iff.mpr hl)
    rw [Circuit.declare, declareInput, hinsert]
    rfl
  | output hl => exact if_pos ((h.isOutput _).mpr hl)
  | driven hdriven => exact if_pos (h.isGateOutput_iff.mpr hdriven)
  | drivesInput hdriven hinput =>
    have hg : ¬ c.isGateOutput _ = true := fun hg => hdriven (h.isGateOutput_iff.mp hg)
    exact (if_neg hg).trans (if_pos ((h.isInput _).mpr hinput))
  | firstMissing free ha =>
    rw [Circuit.declare, h.declareGate_free free, h.checkOperand_error ha]
    rfl
  | secondMissing free ha hb =>
    rw [Circuit.declare, h.declareGate_free free,
      checkOperand_ok_iff (u := ()).mpr (h.not_missing_iff.mp ha), h.checkOperand_error hb]
    rfl
  | firstTurned free ha hb hturn =>
    rw [Circuit.declare, h.declareGate_reads free ha hb]
    exact bind_error_iff.mpr (.inl ((h.shows_ensure _).matchPolarity_error (h.present ha) hturn))
  | secondTurned free ha hb hfirst hturn =>
    rw [Circuit.declare, h.declareGate_reads free ha hb]
    have hsteady := (steady_readAfter_iff h.steady).mpr hfirst
    have hshows := (h.shows_ensure _).turn (h.present ha) hsteady
    refine bind_error_iff.mpr (.inr ⟨_, ((h.shows_ensure _).matchPolarity_ok_iff (h.present ha)).mpr
      ⟨hsteady, rfl⟩, bind_error_iff.mpr (.inl (hshows.matchPolarity_error ?_ hturn))⟩)
    rw [WireStore.contains_turn]
    exact h.present hb

/-- A statement against which no reason counts is admissible and turns no wire for the second time. -/
theorem admissible_or_refused (h : Reads ss c) (s : Statement) :
    (Admissible ss s ∧ ∀ w, changes (polarities (ss ++ [s]) w) ≤ 1) ∨ ∃ cause, Refused ss s cause := by
  cases s with
  | input l =>
    by_cases hl : l.wire ∈ declared ss
    · exact .inr ⟨_, .input hl⟩
    · exact .inl ⟨hl, (h.input hl).steady⟩
  | output l seed =>
    by_cases hl : l.wire ∈ (outputs ss).map Literal.wire
    · exact .inr ⟨_, .output hl⟩
    · exact .inl ⟨hl, (h.output hl).steady⟩
  | gate f out a b =>
    by_cases hdriven : out ∈ driven ss
    · exact .inr ⟨_, .driven hdriven⟩
    by_cases hinput : out ∈ inputs ss
    · exact .inr ⟨_, .drivesInput hdriven hinput⟩
    have free : Undriven ss out := ⟨hdriven, hinput⟩
    by_cases ha : Missing ss out a.wire
    · exact .inr ⟨_, .firstMissing free ha⟩
    by_cases hb : Missing ss out b.wire
    · exact .inr ⟨_, .secondMissing free ha hb⟩
    by_cases hfirst : changes (readAfter (polarities ss) a a.wire) ≤ 1
    · have hsteady := (steady_readAfter_iff h.steady).mpr hfirst
      by_cases hsecond : changes (readAfter (readAfter (polarities ss) a) b b.wire) ≤ 1
      · obtain ⟨hao, hac⟩ := h.not_missing_iff.mp ha
        obtain ⟨hbo, hbc⟩ := h.not_missing_iff.mp hb
        refine .inl ⟨⟨free, ⟨h.contains_iff.mp hac, hao⟩, h.contains_iff.mp hbc, hbo⟩, fun w => ?_⟩
        rw [polarities_concat_gate]
        exact (steady_readAfter_iff hsteady).mpr hsecond w
      · exact .inr ⟨_, .secondTurned free ha hb hfirst (Nat.lt_of_not_le hsecond)⟩
    · exact .inr ⟨_, .firstTurned free ha hb (Nat.lt_of_not_le hfirst)⟩

/-- A statement is refused exactly if there is a reason against it, and for the one that counts. -/
theorem declare_error_iff (h : Reads ss c) : c.declare s = .error cause ↔ Refused ss s cause := by
  refine ⟨fun he => ?_, h.declare_refused⟩
  rcases h.admissible_or_refused s with ⟨adm, steady⟩ | ⟨cause', hr⟩
  · obtain ⟨d, hd⟩ := h.can_declare adm steady
    rw [he] at hd
    cases hd
  · rw [h.declare_refused hr] at he
    cases he
    exact hr

end Reads

/-! ### What is checked at the end -/

namespace Describes

theorem checkOutput_error_iff (h : Describes ss c) {l : Literal} (hl : l ∈ Netlist.outputs ss) :
    c.checkOutput l = .error cause ↔ ¬ Driven ss l.wire ∧ cause = .undrivenOutput l.wire := by
  rw [h.checkOutput_eq hl]
  split
  · exact iff_of_false nofun fun hopen => hopen.1 ‹_›
  · rw [Except.error.injEq, eq_comm]
    exact (and_iff_right ‹_›).symm

theorem checkGate_error_iff (h : Describes ss c) {g : Gate} :
    c.checkGate g = .error cause ↔ ∃ w, FirstLater ss g w ∧ cause = .outOfOrder g.out w := by
  have hreads : c.checkGate g = (do c.checkOrder g g.a; c.checkOrder g g.b) := by
    show (c.checkOrder g g.a >>= fun _ => c.checkOrder g g.b >>= fun _ => .ok ()) = _
    cases c.checkOrder g g.b <;> rfl
  rw [hreads, h.checkOrder_eq, h.checkOrder_eq]
  simp only [FirstLater, Later]
  split
  · simp [*, bind, Except.bind, eq_comm]
  · split <;> simp [*, bind, Except.bind, eq_comm]

theorem gateList_sorted (h : Describes ss c) : c.gateList.Pairwise (·.out < ·.out) := by
  refine Circuit.gateList_sorted fun w g hg => ?_
  rw [h.gate?] at hg
  simpa using List.find?_some hg

/-- The gates that are evaluated before a gate are those with a lower output. -/
theorem mem_before_iff (h : Describes ss c) (adm : AdmissibleAfter [] ss) {before after : List Gate}
    {g : Gate} (hgates : c.gateList = before ++ g :: after) {k : Gate} :
    k ∈ before ↔ k ∈ Netlist.gates ss ∧ k.out < g.out := by
  have hsorted := h.gateList_sorted
  rw [hgates, List.pairwise_append, List.pairwise_cons] at hsorted
  obtain ⟨-, ⟨hafter, -⟩, hbefore⟩ := hsorted
  rw [← h.mem_gateList adm, hgates, List.mem_append, List.mem_cons]
  constructor
  · exact fun hk => ⟨.inl hk, hbefore k hk g (List.mem_cons_self ..)⟩
  · rintro ⟨hk | rfl | hk, hlt⟩
    · exact hk
    · exact absurd hlt (Nat.lt_irrefl _)
    · exact absurd (hafter k hk) (Nat.lt_asymm hlt)

/-- The first output without a driver is reported. -/
theorem checkOutputs_error_iff (h : Describes ss c) :
    c.outputs.forM c.checkOutput = .error cause ↔
      ∃ before l after, Netlist.outputs ss = before ++ l :: after ∧
        (∀ k ∈ before, Driven ss k.wire) ∧ ¬ Driven ss l.wire ∧ cause = .undrivenOutput l.wire := by
  rw [forM_error_iff, h.outputs]
  refine exists_congr fun before => exists_congr fun l => exists_congr fun after =>
    and_congr_right fun houtputs => and_congr (forall₂_congr fun k hk => ?_) ?_
  · exact h.checkOutput_ok_iff (by rw [houtputs]; exact List.mem_append_left _ hk)
  · exact h.checkOutput_error_iff (by rw [houtputs]; simp)

/-- The lowest gate that reads a later one is reported. -/
theorem checkGates_error_iff (h : Describes ss c) (adm : AdmissibleAfter [] ss) :
    c.gateList.forM c.checkGate = .error cause ↔
      ∃ g w, g ∈ Netlist.gates ss ∧ (∀ k ∈ Netlist.gates ss, k.out < g.out → ∀ v, ¬ FirstLater ss k v) ∧
        FirstLater ss g w ∧ cause = .outOfOrder g.out w := by
  have hpass : ∀ k, c.checkGate k = .ok () ↔ ∀ v, ¬ FirstLater ss k v := fun k => by
    cases hk : c.checkGate k with
    | ok u =>
      refine iff_of_true rfl fun v hv => ?_
      have herror := h.checkGate_error_iff.mpr ⟨v, hv, rfl⟩
      rw [hk] at herror
      cases herror
    | error cause =>
      obtain ⟨v, hv, -⟩ := h.checkGate_error_iff.mp hk
      exact iff_of_false nofun fun hnone => hnone v hv
  rw [forM_error_iff]
  simp only [hpass, h.checkGate_error_iff]
  constructor
  · rintro ⟨before, g, after, hgates, hbefore, w, hg, rfl⟩
    have hmem : g ∈ c.gateList := by rw [hgates]; simp
    refine ⟨g, w, (h.mem_gateList adm).mp hmem, fun k hk hlt => ?_, hg, rfl⟩
    exact hbefore k ((h.mem_before_iff adm hgates).mpr ⟨hk, hlt⟩)
  · rintro ⟨g, w, hmem, hlowest, hg, rfl⟩
    obtain ⟨before, after, hgates⟩ := List.append_of_mem ((h.mem_gateList adm).mpr hmem)
    refine ⟨before, g, after, hgates, fun k hk => ?_, w, hg, rfl⟩
    obtain ⟨hk, hlt⟩ := (h.mem_before_iff adm hgates).mp hk
    exact hlowest k hk hlt

/-- What is checked at the end fails exactly if something is open, and for what comes first. -/
theorem checkComplete_error_iff (h : Describes ss c) (adm : AdmissibleAfter [] ss) :
    c.checkComplete = .error cause ↔ Incomplete ss cause := by
  rw [checkComplete, bind_error_iff, h.checkOutputs_error_iff, h.checkGates_error_iff adm]
  constructor
  · rintro (⟨before, l, after, houtputs, hbefore, hopen, rfl⟩ |
      ⟨_, hdriven, g, w, hmem, hlowest, hg, rfl⟩)
    · exact .undriven houtputs hbefore hopen
    · rw [forM_ok_iff, h.outputs] at hdriven
      exact .outOfOrder (fun l hl => (h.checkOutput_ok_iff hl).mp (hdriven l hl)) hmem hlowest hg
  · intro hi
    cases hi with
    | undriven houtputs hbefore hopen => exact .inl ⟨_, _, _, houtputs, hbefore, hopen, rfl⟩
    | outOfOrder hdriven hmem hlowest hg =>
      refine .inr ⟨(), ?_, _, _, hmem, hlowest, hg, rfl⟩
      rw [forM_ok_iff, h.outputs]
      exact fun l hl => (h.checkOutput_ok_iff hl).mpr (hdriven l hl)

end Describes

end Netlist

end GateNet
