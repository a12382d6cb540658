import GateNet.Proofs.Extension
import GateNet.Proofs.Netlist.Rereading

/-!
Building does not look at the data. What it reads of a wire beside the structure is the value of a
constant, and that is settled when the wire is issued: an input, its complement and a gate output are
told by the structure alone. So circuits that differ in the values of these wires answer every step of
synthesis alike, and still differ in nothing else after it.
-/

namespace GateNet

open Relation

/-- What an operation answered, or the error that it ended in. -/
abbrev Reply := Except IntegerError Answer

/-- The reply of an operation, with the circuit that it leaves; a fault leaves neither. -/
def Outcome.reply? : Outcome → Option (Reply × Circuit)
  | .answered answer c => some (.ok answer, c)
  | .failed error c => some (.error error, c)
  | .faulty _ => none

theorem Outcome.circuit?_of_reply? {o : Outcome} {reply : Reply} {c : Circuit}
    (h : o.reply? = some (reply, c)) : o.circuit? = some c := by
  cases o with
  | answered answer c' =>
    cases h
    rfl
  | failed error c' =>
    cases h
    rfl
  | faulty fault => cases h

theorem Outcome.reply?_ofBuild {step : Build Answer} {c d : Circuit} {reply : Reply} :
    (Outcome.ofBuild step c).reply? = some (reply, d) ↔
      ∃ answer, step c = .ok (answer, d) ∧ reply = .ok answer := by
  rw [ofBuild]
  cases step c with
  | error e => simp [reply?]
  | ok p => simp [reply?, eq_comm, and_comm, Prod.ext_iff]

theorem Outcome.reply?_ofAttempt {ε : Type} (toError : ε → IntegerError) (run : Attempt Circuit ε) :
    (Outcome.ofAttempt toError run).reply? =
      some (run.failure.elim (.ok .nothing) fun e => .error (toError e), run.state) := by
  rw [ofAttempt]
  cases run.failure <;> rfl

/-- Where two runs take corresponding steps, they fail alike and end in corresponding states. -/
theorem runSteps_related {σ τ α ε : Type} {R : σ → τ → Prop} {f : σ → α → Except ε σ}
    {g : τ → α → Except ε τ}
    (h : ∀ s t a, R s t → (∃ e, f s a = .error e ∧ g t a = .error e) ∨
      ∃ s' t', f s a = .ok s' ∧ g t a = .ok t' ∧ R s' t')
    {s : σ} {t : τ} (hst : R s t) (as : List α) :
    (runSteps f s as).failure = (runSteps g t as).failure ∧
      R (runSteps f s as).state (runSteps g t as).state := by
  induction as generalizing s t with
  | nil => exact ⟨rfl, hst⟩
  | cons a rest ih =>
    rcases h s t a hst with ⟨e, hs, ht⟩ | ⟨s', t', hs, ht, hst'⟩
    · rw [runSteps_cons_error hs, runSteps_cons_error ht]
      exact ⟨rfl, hst⟩
    · rw [runSteps_cons_ok hs, runSteps_cons_ok ht]
      exact ih hst'

namespace Circuit

open Netlist

variable {c d c' d' : Circuit} {w : Nat}

/-! ### Circuits that differ in supplied values -/

/-- The wire is there, but it is no input, no complement of an input and no gate output. -/
structure Loose (c : Circuit) (w : Nat) : Prop where
  registered : c.wires.contains w = true
  not_input : c.isInput w = false
  not_driven : c.isGateOutput w = false
  not_complement : ∀ p ∈ c.inputComplements, p.2 ≠ w

/-- The circuits differ at most in the values of inputs, complements of inputs and gate outputs. -/
structure Alike (c d : Circuit) : Prop extends SameStructure c d where
  raw? : ∀ w, Loose c w → d.wires.raw? w = c.wires.raw? w

theorem Loose.sameStructure (h : Loose c w) (same : SameStructure c d) : Loose d w where
  registered := (same.contains w).trans h.registered
  not_input := (same.isInput w).trans h.not_input
  not_driven := (same.isGateOutput w).trans h.not_driven
  not_complement := same.inputComplements ▸ h.not_complement

/-- A wire without a complement is no complement of an input, for it would be known as one. -/
theorem Complemented.loose (hc : Complemented c) (hw : c.wires.contains w = true)
    (hi : c.isInput w = false) (hd : c.isGateOutput w = false) (hu : c.complement? w = none) :
    Loose c w where
  registered := hw
  not_input := hi
  not_driven := hd
  not_complement := by
    rintro p hp rfl
    rw [hc.symm _ _ (hc.remembered p hp)] at hu
    cases hu

/-- A loose wire was loose before. -/
theorem Loose.kept (h : Loose d w) (keeps : Keeps c d) (hw : c.wires.contains w = true) :
    Loose c w where
  registered := hw
  not_input := (keeps.isInput w hw).symm.trans h.not_input
  not_driven := (keeps.isGateOutput hw).symm.trans h.not_driven
  not_complement p hp he := h.not_complement p ((keeps.recorded p (he ▸ hw)).mpr hp) he

namespace Alike

theorem refl (c : Circuit) : Alike c c := ⟨.refl c, fun _ _ => rfl⟩

theorem symm (h : Alike c d) : Alike d c where
  toSameStructure := h.toSameStructure.symm
  raw? w hw := (h.raw? w (hw.sameStructure h.toSameStructure.symm)).symm

theorem trans {e : Circuit} (h : Alike c d) (h' : Alike d e) : Alike c e where
  toSameStructure := h.toSameStructure.trans h'.toSameStructure
  raw? w hw := (h'.raw? w (hw.sameStructure h.toSameStructure)).trans (h.raw? w hw)

/-- Circuits that grow alike stay alike, if the wires that are issued have one value or are not loose. -/
theorem grow {p : Polarity} {x y : Option Bool} (same : Alike c d) (keeps : Keeps c c')
    (hc : c'.wires = c.wires.put c.nextWire ⟨x, p⟩) (hd : d'.wires = d.wires.put c.nextWire ⟨y, p⟩)
    (hrest : d' = { c' with wires := d'.wires }) (hvalue : Loose c' c.nextWire → y = x) :
    Alike c' d' where
  polarity? w := by
    rw [hc, hd, WireStore.polarity?_put, WireStore.polarity?_put, same.polarity?]
  rest := hrest
  raw? w hw := by
    rw [hc, hd, WireStore.raw?_put, WireStore.raw?_put]
    by_cases he : c.nextWire = w
    · subst he
      simp [hvalue hw]
    · have hreg := hw.registered
      rw [hc, WireStore.contains_put] at hreg
      rw [if_neg he, if_neg he]
      exact same.raw? w (hw.kept keeps (hreg.resolve_left (Ne.symm he)))

end Alike

/-! ### Acts of building -/

/-- The complement of a wire is found or built alike. -/
theorem Alike.invert (hc : Complemented c) (same : Alike c d) {v u : Nat}
    (h : Build.invert w c = .ok (v, c')) (h' : Build.invert w d = .ok (u, d')) :
    u = v ∧ Alike c' d' := by
  have hrest := same.rest
  generalize hs : d.wires = s at hrest
  subst hrest
  rcases Build.invert_ok_iff.mp h with ⟨memo, rfl⟩ | ⟨memo, can, rfl, cell, hcell, hcase⟩
  · rcases Build.invert_ok_iff.mp h' with ⟨memo', rfl⟩ | ⟨memo', -⟩
    · exact ⟨Option.some.inj (memo'.symm.trans memo), same⟩
    · cases memo'.symm.trans memo
  rcases Build.invert_ok_iff.mp h' with ⟨memo', -⟩ | ⟨-, -, rfl, cell', hcell', hcase'⟩
  · cases memo'.symm.trans memo
  refine ⟨rfl, ?_⟩
  obtain ⟨y, q⟩ := cell'
  obtain rfl : q = cell.polarity := by
    have hp := same.polarity? w
    rw [WireStore.polarity?, WireStore.polarity?, hcell, hcell'] at hp
    exact Option.some.inj hp
  rcases hcase with ⟨hi, rfl⟩ | ⟨hi, g, hg, free, rfl⟩ | ⟨hi, hg, bit, hbit, rfl⟩
  · rcases hcase' with ⟨-, rfl⟩ | ⟨hi', -⟩ | ⟨hi', -⟩
    · -- the values may differ, but the new wire is the complement of an input
      exact same.grow (Growth.inputComplement can memo hcell hi).keeps rfl rfl rfl fun hl =>
        absurd rfl (hl.not_complement _ (mem_inputComplements.mpr (.inl rfl)))
    · cases hi'.symm.trans hi
    · cases hi'.symm.trans hi
  · rcases hcase' with ⟨hi', -⟩ | ⟨-, g', hg', -, rfl⟩ | ⟨-, hg', -⟩
    · cases hi'.symm.trans hi
    · obtain rfl : g' = g := Option.some.inj (hg'.symm.trans hg)
      refine same.grow (Growth.gateComplement can memo hcell hi hg free).keeps rfl rfl rfl
        fun hl => ?_
      have hdriven : (c.withGateComplement w g' cell).isGateOutput c.nextWire = true :=
        (isGateOutput_file ..).mpr (.inl rfl)
      rw [hl.not_driven] at hdriven
      cases hdriven
    · cases hg'.symm.trans hg
  · rcases hcase' with ⟨hi', -⟩ | ⟨-, g', hg', -⟩ | ⟨-, -, bit', hbit', rfl⟩
    · cases hi'.symm.trans hi
    · cases hg'.symm.trans hg
    · -- the wire is loose, so the values agree, and with them those of the new constants
      have hloose := hc.loose (WireStore.contains_iff.mpr ⟨cell, hcell⟩) hi
        (by rw [isGateOutput_eq, hg]; rfl) memo
      have hseen := WireStore.seen?_congr (same.raw? w hloose) (same.polarity? w)
      rw [WireStore.seen?, WireStore.seen?, hcell, hcell', Option.bind_some, Option.bind_some,
        hbit, hbit'] at hseen
      cases hseen
      exact same.grow (Growth.wire _ can).keeps rfl rfl rfl fun _ => rfl

/-- What is assembled from acts of building returns the same on circuits that are alike, and leaves them
alike. -/
theorem Alike.build {α : Type} {m : Build α} (h : Build.Assembled m) (hc : Complemented c)
    (same : Alike c d) {a b : α} (hm : m c = .ok (a, c')) (hm' : m d = .ok (b, d')) :
    b = a ∧ Alike c' d' := by
  induction h generalizing c d c' d' with
  | pure a =>
    obtain ⟨rfl, rfl⟩ := Build.pure_ok_iff.mp hm
    obtain ⟨rfl, rfl⟩ := Build.pure_ok_iff.mp hm'
    exact ⟨rfl, same⟩
  | fault he => exact (Build.throw_ok_iff.mp hm).elim
  | bind hfirst hrest ihm ihf =>
    obtain ⟨x, e, hx, hm⟩ := Build.bind_ok_iff.mp hm
    obtain ⟨y, e', hy, hm'⟩ := Build.bind_ok_iff.mp hm'
    obtain ⟨rfl, same'⟩ := ihm hc same hx hy
    exact ihf _ (hc.grown (hfirst.grows.growth hx)) same' hm hm'
  | wire value =>
    obtain ⟨can, rfl, rfl⟩ := Build.freshWire_ok_iff.mp hm
    obtain ⟨-, rfl, rfl⟩ := Build.freshWire_ok_iff.mp hm'
    rw [same.rest]
    exact ⟨rfl, same.grow (Growth.wire value can).keeps rfl rfl rfl fun _ => rfl⟩
  | input =>
    obtain ⟨can, rfl, rfl⟩ := Build.issueInput_ok_iff.mp hm
    obtain ⟨-, rfl, rfl⟩ := Build.issueInput_ok_iff.mp hm'
    rw [same.rest]
    exact ⟨rfl, same.grow (Growth.input can).keeps rfl rfl rfl fun _ => rfl⟩
  | gate function u v =>
    obtain ⟨can, hu, hv, free, rfl, rfl⟩ := Build.addGate_ok_iff.mp hm
    obtain ⟨-, -, -, -, rfl, rfl⟩ := Build.addGate_ok_iff.mp hm'
    rw [same.rest]
    exact ⟨rfl, same.grow (Growth.gate function can hu hv free).keeps rfl rfl rfl fun _ => rfl⟩
  | invert w => exact same.invert hc hm hm'

/-! ### Declaring outputs -/

/-- An output is declared alike, or refused alike. -/
theorem Alike.addOutput (same : Alike c d) (w : Nat) :
    (∃ e, c.addOutput w = .error e ∧ d.addOutput w = .error e) ∨
      ∃ c' d', c.addOutput w = .ok c' ∧ d.addOutput w = .ok d' ∧ Alike c' d' := by
  have hreg := same.contains w
  have hout : d.isOutput w = c.isOutput w := by
    rw [same.rest]
    rfl
  cases hc : c.addOutput w with
  | error e =>
    refine .inl ⟨e, rfl, ?_⟩
    rw [addOutput_error_iff, hreg, hout]
    exact addOutput_error_iff.mp hc
  | ok c' =>
    obtain ⟨k, hk, ho, rfl⟩ := addOutput_ok_iff.mp hc
    obtain ⟨k', hk'⟩ := WireStore.contains_iff.mp (hreg.trans (WireStore.contains_iff.mpr ⟨k, hk⟩))
    have hpolarity : k'.polarity = k.polarity := by
      have hp := same.polarity? w
      rw [WireStore.polarity?, WireStore.polarity?, hk, hk'] at hp
      exact Option.some.inj hp
    refine .inr ⟨_, _, rfl, addOutput_ok_iff.mpr ⟨k', hk', hout.trans ho, rfl⟩,
      ⟨same.polarity?, ?_⟩, fun v hv => same.raw? v { hv with }⟩
    rw [hpolarity, same.rest]
    rfl

/-! ### Operations -/

/-- A step of synthesis has the same reply on circuits that are alike, and leaves them alike. -/
theorem Alike.synthesis (hc : Complemented c) (same : Alike c d) {op : Operation}
    (hs : op.Synthesizes) {reply reply' : Reply} (h : (op.run c).reply? = some (reply, c'))
    (h' : (op.run d).reply? = some (reply', d')) : reply' = reply ∧ Alike c' d' := by
  have hbuild : ∀ {step : Build Answer}, Build.Assembled step →
      (Outcome.ofBuild step c).reply? = some (reply, c') →
      (Outcome.ofBuild step d).reply? = some (reply', d') → reply' = reply ∧ Alike c' d' := by
    intro step assembled h h'
    obtain ⟨answer, hstep, rfl⟩ := Outcome.reply?_ofBuild.mp h
    obtain ⟨answer', hstep', rfl⟩ := Outcome.reply?_ofBuild.mp h'
    obtain ⟨rfl, same'⟩ := same.build assembled hc hstep hstep'
    exact ⟨rfl, same'⟩
  cases op with
  | build step => exact hbuild step.assembled_run h h'
  | constantWord width value =>
    rw [Operation.run, Word.constant] at h h'
    cases hb : TwosComplement.encode value width with
    | error e =>
      simp only [hb, Except.map] at h h'
      cases h
      cases h'
      exact ⟨rfl, same⟩
    | ok bits =>
      simp only [hb, Except.map] at h h'
      exact hbuild (Build.assembled_map _ (Word.assembled_ofConstants bits)) h h'
  | addOutput w =>
    rw [Operation.run, makeOutput_eq] at h h'
    rcases same.addOutput w with ⟨e, hce, hde⟩ | ⟨c₁, d₁, hc₁, hd₁, same'⟩
    · rw [hce] at h
      rw [hde] at h'
      cases h
      cases h'
      exact ⟨rfl, same⟩
    · rw [hc₁] at h
      rw [hd₁] at h'
      cases h
      cases h'
      exact ⟨rfl, same'⟩
  | markOutput x =>
    obtain ⟨hfail, hstate⟩ := runSteps_related (R := Alike)
      (fun _ _ w same => same.addOutput w) same x.bits
    rw [Operation.run, Outcome.reply?_ofAttempt, Word.markOutput_eq] at h h'
    rw [← hfail] at h'
    cases h
    cases h'
    exact ⟨rfl, hstate⟩
  | _ => exact hs.elim

/-- Values are given to inputs alone, or the circuit is executed; either may fail. -/
def Supply (c d : Circuit) : Prop :=
  ∃ op : Operation, ¬ op.Synthesizes ∧ (op.run c).circuit? = some d ∧
    ∀ w, op.Assigns w → c.wires.contains w = true → c.isInput w = true

theorem Supply.proceeds (h : Supply c d) : Proceeds c d := by
  obtain ⟨op, -, hop, hw⟩ := h
  by_cases hx : op = .execute
  · subst hx
    rw [Operation.run, circuit?_ofAttempt] at hop
    cases hop
    exact .executed
  · exact .supplied (supplies_of_assigns op hx hop hw)

/-- Nothing but raw values changes when values are given or the circuit is executed. -/
theorem Supply.sameStructure (hc : WellFormed c) (h : Supply c d) : SameStructure c d := by
  have hassign : ∀ {e e' : Circuit} {w : Nat} {value : Bool}, e.assign w value = .ok e' →
      SameStructure e e' := by
    intro e e' w value he
    obtain ⟨-, rfl⟩ := assign_ok_iff.mp he
    exact ⟨fun v => WireStore.polarity?_write .., rfl⟩
  obtain ⟨op, hs, hop, -⟩ := h
  cases op with
  | assign w value =>
    rw [Operation.run] at hop
    cases ha : c.assign w value with
    | ok e =>
      rw [ha] at hop
      cases hop
      exact hassign ha
    | error e =>
      rw [ha] at hop
      cases hop
      exact .refl c
  | assignWord x value =>
    rw [Operation.run, circuit?_ofAttempt, Word.assign] at hop
    cases hop
    split
    · exact .runSteps (fun bit e e' he => hassign (mapError_ok_iff.mp he)) c _
    · exact .refl c
  | loadValues text =>
    rw [Operation.run, circuit?_ofAttempt] at hop
    cases hop
    exact sameStructure_load c text
  | execute =>
    rw [Operation.run, circuit?_ofAttempt] at hop
    cases hop
    exact hc.sameGiven_settle.toSameStructure
  | _ => exact absurd trivial hs

theorem Supply.alike (hc : WellFormed c) (h : Supply c d) : Alike c d where
  toSameStructure := h.sameStructure hc
  raw? w hw := by
    cases h.proceeds with
    | supplied hs =>
      obtain ⟨-, -, -, hsame⟩ := hs
      exact hsame w hw.registered hw.not_input
    | executed => exact hc.raw?_execute hw.not_driven hw.not_complement

/-! ### Netlists -/

theorem Alike.orphan (hc : Complemented c) (same : Alike c d) (h : Orphan c w) : Orphan d w where
  registered := (same.contains w).trans h.registered
  not_input := (same.isInput w).trans h.not_input
  not_driven := (same.isGateOutput w).trans h.not_driven
  unknown := (same.raw? w (hc.loose h.registered h.not_input h.not_driven h.unpaired)).trans h.unknown
  unpaired := by
    rw [same.rest]
    exact h.unpaired

/-- Circuits that are alike are written as one text. -/
theorem Alike.render (hc : Complemented c) (hd : Complemented d) (same : Alike c d) :
    render d = render c := by
  have hpolarity : ∀ w, polarity d w = polarity c w := fun w => by
    rw [polarity_eq, polarity_eq, same.polarity?]
  have horphan : ∀ w, Orphan d w ↔ Orphan c w := fun w => ⟨same.symm.orphan hd, same.orphan hc⟩
  have hsources : (sources d).map Prod.fst = (sources c).map Prod.fst := by
    refine (sources_sorted d).eq_of_mem_iff (sources_sorted c) fun w => ?_
    rw [mem_sources_iff, mem_sources_iff, horphan, same.isGateOutput, same.contains]
  have hlines : d.gateList.map (gateStatement d) = c.gateList.map (gateStatement c) := by
    rw [same.gateList]
    refine List.map_congr_left fun g _ => ?_
    rw [gateStatement, gateStatement, hpolarity, hpolarity]
  have hstatements : statements d = statements c := by
    rw [statements_eq, statements_eq, sourceLiterals_eq, sourceLiterals_eq, hsources, hlines]
    simp only [hpolarity]
    rw [same.rest]
  have hwires : d.numWires = c.numWires :=
    WireStore.size_congr fun w => by rw [same.contains]
  have hcount : d.numGates = c.numGates := by
    rw [same.rest]
    rfl
  rw [Netlist.render, Netlist.render, hstatements, heading, heading, hwires, hcount]

/-! ### Programs -/

/-- A run of a program of synthesis. The program picks every step by the replies to the steps before it;
between the steps, inputs may be given values and the circuit may be executed. The run has its replies
so far, and the circuit that it has come to. -/
inductive Runs (program : List Reply → Operation) : List Reply → Circuit → Prop
  | start : Runs program [] {}
  | synthesis {replies : List Reply} {reply : Reply} {c d : Circuit} : Runs program replies c →
      (program replies).Synthesizes → ((program replies).run c).reply? = some (reply, d) →
      Runs program (replies ++ [reply]) d
  | supply {replies : List Reply} {c d : Circuit} : Runs program replies c → Supply c d →
      Runs program replies d

variable {program : List Reply → Operation} {replies replies' : List Reply}

theorem Runs.reachable (h : Runs program replies c) : Reachable c := by
  induction h with
  | start => exact .empty
  | synthesis _ _ hop ih => exact ih.operated _ (Outcome.circuit?_of_reply? hop)
  | supply _ hs ih =>
    obtain ⟨op, hop⟩ := hs.proceeds.operated
    exact ih.operated op hop

/-- Runs of one program that have come equally far have had the same replies, and come to circuits that
are alike. -/
theorem Runs.alike (h : Runs program replies c) (h' : Runs program replies' d)
    (hlength : replies.length = replies'.length) : replies = replies' ∧ Alike c d := by
  induction h generalizing replies' d with
  | start =>
    -- the other run has done nothing but supply values
    induction h' with
    | start => exact ⟨rfl, .refl _⟩
    | synthesis => simp at hlength
    | supply hrun hs ih =>
      obtain ⟨heq, same⟩ := ih hlength
      exact ⟨heq, same.trans (hs.alike hrun.reachable.wellFormed)⟩
  | supply hrun hs ih =>
    obtain ⟨heq, same⟩ := ih h' hlength
    exact ⟨heq, (hs.alike hrun.reachable.wellFormed).symm.trans same⟩
  | synthesis hrun hsynth hop ih =>
    induction h' with
    | start => simp at hlength
    | supply hrun' hs' ih' =>
      obtain ⟨heq, same⟩ := ih' hlength
      exact ⟨heq, same.trans (hs'.alike hrun'.reachable.wellFormed)⟩
    | synthesis hrun' hsynth' hop' =>
      obtain ⟨rfl, same⟩ := ih hrun' (by simpa using hlength)
      obtain ⟨rfl, same'⟩ := same.synthesis hrun.reachable.complemented hsynth hop hop'
      exact ⟨rfl, same'⟩

/-- Whatever values the inputs are given, and whenever the circuit is executed, a program of synthesis
gets the same replies and builds circuits that differ in raw values alone, which are written as one
netlist. -/
theorem synthesis_oblivious (h : Runs program replies c) (h' : Runs program replies' d)
    (hlength : replies.length = replies'.length) :
    replies = replies' ∧ SameStructure c d ∧ Netlist.render c = Netlist.render d := by
  obtain ⟨heq, same⟩ := h.alike h' hlength
  exact ⟨heq, same.toSameStructure,
    (same.render h.reachable.complemented h'.reachable.complemented).symm⟩

end Circuit

end GateNet
