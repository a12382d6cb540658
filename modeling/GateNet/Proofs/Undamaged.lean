import GateNet.Proofs.Readout

/-!
When an action on a circuit fails, and what it leaves behind. A circuit can go on after every failure:
nothing that fails builds anything, so what a failure can leave is raw values and outputs. Single wires
and readings leave nothing, an output that is refused included, whose wire was noted before; words are
written and declared bit by bit, and the bits before the one at fault stay written or declared.
-/

namespace GateNet

open Circuit
open TwosComplement Netlist

variable {c d : Circuit} {w : Nat} {cause : Cause}

/-! ### Actions -/

/-- What can be done with a circuit: an operation is carried out, or its outputs or a word are read. -/
inductive Action where
  | operation (op : Operation)
  | outputValues
  | outputBits
  | decodeUnsigned (x : Word)
  | decodeSigned (x : Word)

/-- The error of a reading that fails. A reading only looks at the circuit, so there is no other circuit
that it could leave. -/
def Circuit.readFailure? {α : Type} (c : Circuit) : Except Cause α → Option (IntegerError × Circuit)
  | .ok _ => none
  | .error cause => some (.ofCause cause, c)

/-- The error of an action that fails, with the circuit that it leaves. -/
def Action.failure? (c : Circuit) : Action → Option (IntegerError × Circuit)
  | .operation op =>
    match op.run c with
    | .failed e d => some (e, d)
    | _ => none
  | .outputValues => c.readFailure? c.outputValues
  | .outputBits => c.readFailure? c.outputBits
  | .decodeUnsigned x => c.readFailure? (x.decodeUnsigned c)
  | .decodeSigned x => c.readFailure? (x.decodeSigned c)

namespace Circuit

/-- The circuits differ in raw values and outputs at most. -/
structure SameCore (c d : Circuit) : Prop where
  contains : ∀ w, d.wires.contains w = c.wires.contains w
  polarity? : ∀ w, d.wires.polarity? w = c.wires.polarity? w
  rest : d = { c with wires := d.wires, outputs := d.outputs, outputWires := d.outputWires }

theorem SameCore.refl (c : Circuit) : SameCore c c := ⟨fun _ => rfl, fun _ => rfl, rfl⟩

theorem SameStructure.sameCore (h : SameStructure c d) : SameCore c d where
  contains := h.contains
  polarity? := h.polarity?
  rest := by rw [h.rest]

/-- Why a bit of a word cannot be declared after those before it: it is not registered, or it is an
output already, maybe through one of these bits. -/
inductive Undeclarable (c : Circuit) (before : List Nat) (w : Nat) : Cause → Prop
  | unknown : c.wires.contains w = false → Undeclarable c before w (.wire (.notFound w))
  | declared : c.wires.contains w = true → c.isOutput w = true ∨ w ∈ before →
      Undeclarable c before w (.duplicateOutput w)

/-- Why a wire cannot be read: it is not registered, or it has no value. -/
inductive Unread (c : Circuit) (w : Nat) : Cause → Prop
  | unknown : c.wires.contains w = false → Unread c w (.wire (.notFound w))
  | unassigned : c.wires.contains w = true → c.wires.raw? w = none → Unread c w (.unassignedOutput w)

/-- One of the wires cannot be read for this reason, and those before it can. -/
def FirstUnread (c : Circuit) (ws : List Nat) (cause : Cause) : Prop :=
  ∃ before w after, ws = before ++ w :: after ∧ (∀ u ∈ before, c.wires.raw? u ≠ none) ∧ Unread c w cause

end Circuit

/-- When an action fails with this error, and what it leaves of the circuit. -/
def Action.Leaves (c d : Circuit) (e : IntegerError) : Action → Prop
  | .operation (.build _) => False
  | .operation (.constantWord width v) => encode v width = .error e ∧ e = .tooWide v width ∧ d = c
  | .operation (.addOutput w) => (∃ cause, Undeclarable c [] w cause ∧ e = .ofCause cause) ∧ d = c
  | .operation (.assign w _) =>
    c.wires.contains w = false ∧ e = .ofCause (.wire (.notFound w)) ∧ d = c
  | .operation (.assignWord x v) =>
    (encode v x.width = .error e ∧ e = .tooWide v x.width ∧ d = c) ∨
      ∃ before w after bits bit rest, x.bits = before ++ w :: after ∧
        encode v x.width = .ok (bits ++ bit :: rest) ∧ before.length = bits.length ∧
        (∀ u ∈ before, c.wires.contains u = true) ∧ c.wires.contains w = false ∧
        e = .ofCause (.wire (.notFound w)) ∧
        d = { c with wires := Values.writeAll c.wires (before.zip bits) }
  | .operation (.markOutput x) =>
    ∃ before w after cause, x.bits = before ++ w :: after ∧ before.Nodup ∧
      (∀ u ∈ before, c.wires.contains u = true ∧ c.isOutput u = false) ∧
      Undeclarable c before w cause ∧ e = .ofCause cause ∧
      d = c.withOutputs (before.map fun u => ⟨u, polarity c u⟩)
  | .operation (.loadValues text) =>
    ∃ e', Values.load c text = ⟨d, some e'⟩ ∧ e = .circuit e' ∧ SameStructure c d
  | .operation .execute =>
    ∃ cause, c.execute = ⟨d, some cause⟩ ∧ e = .ofCause cause ∧ SameStructure c d
  | .outputValues | .outputBits =>
    ∃ cause, FirstUnread c (c.outputs.map Literal.wire) cause ∧ e = .ofCause cause ∧ d = c
  | .decodeUnsigned x | .decodeSigned x =>
    ∃ cause, FirstUnread c x.bits cause ∧ e = .ofCause cause ∧ d = c

namespace Circuit

/-! ### Readings -/

theorem readBit_unread_iff : Word.readBit c w = .error cause ↔ Unread c w cause := by
  cases hreg : c.wires.contains w with
  | false =>
    have hvalue : c.value w = .error (.wire (.notFound w)) := by
      rw [Circuit.value, WireStore.effective_eq, hreg]
      rfl
    rw [Word.readBit, hvalue]
    constructor
    · rintro ⟨⟩
      exact .unknown hreg
    · intro h
      cases h with
      | unknown => rfl
      | unassigned hreg' => simp [hreg] at hreg'
  | true =>
    rw [Word.readBit_error_iff hreg, value_ok_iff]
    constructor
    · rintro ⟨⟨-, hseen⟩, rfl⟩
      exact .unassigned hreg (WireStore.seen?_eq_none_iff.mp hseen.symm)
    · intro h
      cases h with
      | unknown hreg' => simp [hreg] at hreg'
      | unassigned _ hraw => exact ⟨⟨hreg, (WireStore.seen?_eq_none_iff.mpr hraw).symm⟩, rfl⟩

theorem exists_readBit_iff : (∃ x, Word.readBit c w = .ok x) ↔ c.wires.raw? w ≠ none := by
  simp only [Word.readBit_ok_iff]
  rw [← Option.ne_none_iff_exists', Ne, WireStore.seen?_eq_none_iff]

theorem outputValue_unread_iff {l : Literal} :
    c.outputValue l = .error cause ↔ Unread c l.wire cause := by
  rw [outputValue, bind_error_iff, cell_error_iff]
  constructor
  · rintro (⟨hreg, rfl⟩ | ⟨cell, hcell, h⟩)
    · exact .unknown hreg
    · have hc := cell_ok_iff.mp hcell
      split at h
      · cases h
      · rename_i hnone
        cases h
        refine .unassigned (WireStore.contains_iff.mpr ⟨cell, hc⟩) ?_
        rw [WireStore.raw?, hc, Option.bind_some, hnone]
  · intro h
    cases h with
    | unknown hreg => exact .inl ⟨hreg, rfl⟩
    | unassigned hreg hraw =>
      obtain ⟨cell, hc⟩ := WireStore.contains_iff.mp hreg
      rw [WireStore.raw?, hc, Option.bind_some] at hraw
      exact .inr ⟨cell, cell_ok_iff.mpr hc, by rw [hraw]; rfl⟩

theorem exists_outputValue_iff {l : Literal} :
    (∃ x, c.outputValue l = .ok x) ↔ c.wires.raw? l.wire ≠ none := by
  simp only [outputValue_ok_iff]
  rw [Option.ne_none_iff_exists']
  constructor
  · rintro ⟨-, raw, hraw, -⟩
    exact ⟨raw, hraw⟩
  · rintro ⟨raw, hraw⟩
    exact ⟨_, raw, hraw, rfl⟩

/-- Where the elements of a list are read like wires, the list is read like the list of these wires. -/
theorem mapM_unread_iff {α β : Type} {f : α → Except Cause β} {g : α → Nat}
    (hok : ∀ a, (∃ x, f a = .ok x) ↔ c.wires.raw? (g a) ≠ none)
    (herror : ∀ a, f a = .error cause ↔ Unread c (g a) cause) {as : List α} :
    as.mapM f = .error cause ↔ FirstUnread c (as.map g) cause := by
  simp only [mapM_error_iff, hok, herror]
  constructor
  · rintro ⟨before, a, after, rfl, hbefore, ha⟩
    refine ⟨before.map g, g a, after.map g, by simp, ?_, ha⟩
    rw [List.forall_mem_map]
    exact hbefore
  · rintro ⟨ws, w, vs, hsplit, hws, hw⟩
    obtain ⟨before, rest, rfl, rfl, hrest⟩ := List.map_eq_append_iff.mp hsplit
    obtain ⟨a, after, rfl, rfl, rfl⟩ := List.map_eq_cons_iff.mp hrest
    exact ⟨before, a, after, rfl, fun b hb => hws _ (List.mem_map_of_mem hb), hw⟩

theorem outputValues_error_iff :
    c.outputValues = .error cause ↔ FirstUnread c (c.outputs.map Literal.wire) cause :=
  mapM_unread_iff (fun _ => exists_outputValue_iff) fun _ => outputValue_unread_iff

theorem outputBits_error_iff :
    c.outputBits = .error cause ↔ FirstUnread c (c.outputs.map Literal.wire) cause := by
  rw [← outputValues_error_iff, outputBits]
  cases c.outputValues <;> simp [Except.map]

theorem decodeUnsigned_error_iff {x : Word} :
    x.decodeUnsigned c = .error cause ↔ FirstUnread c x.bits cause := by
  have hbits : x.bits.mapM (Word.readBit c) = .error cause ↔ FirstUnread c (x.bits.map id) cause :=
    mapM_unread_iff (fun _ => exists_readBit_iff) fun _ => readBit_unread_iff
  rw [List.map_id] at hbits
  simp only [Word.decodeUnsigned, bind_error_iff, hbits, pure_error_iff, and_false, exists_false,
    or_false]

theorem decodeSigned_error_iff {x : Word} :
    x.decodeSigned c = .error cause ↔ FirstUnread c x.bits cause := by
  simp only [Word.decodeSigned, bind_error_iff, decodeUnsigned_error_iff, pure_error_iff, and_false,
    exists_false, or_false]

theorem readFailure?_eq_some_iff {α : Type} {x : Except Cause α} {e : IntegerError} :
    c.readFailure? x = some (e, d) ↔ ∃ cause, x = .error cause ∧ e = .ofCause cause ∧ d = c := by
  cases x with
  | ok a => simp [readFailure?]
  | error cause => simp [readFailure?, eq_comm]

/-! ### The bits of words -/

theorem assignBit_error_iff {bit : Nat × Bool} {e : IntegerError} :
    Word.assignBit c bit = .error e ↔
      c.wires.contains bit.1 = false ∧ e = .ofCause (.wire (.notFound bit.1)) := by
  simp only [Word.assignBit, mapError_error_iff, assign_error_iff]
  constructor
  · rintro ⟨cause, ⟨hreg, rfl⟩, he⟩
    exact ⟨hreg, he⟩
  · rintro ⟨hreg, he⟩
    exact ⟨_, ⟨hreg, rfl⟩, he⟩

theorem addOutput_undeclarable_iff : c.addOutput w = .error cause ↔ Undeclarable c [] w cause := by
  rw [addOutput_error_iff]
  constructor
  · rintro (⟨hreg, rfl⟩ | ⟨hreg, hout, rfl⟩)
    · exact .unknown hreg
    · exact .declared hreg (.inl hout)
  · intro h
    cases h with
    | unknown hreg => exact .inl ⟨hreg, rfl⟩
    | declared hreg hout => exact .inr ⟨hreg, hout.resolve_right List.not_mem_nil, rfl⟩

/-- Bits that are declared are outputs for those that come after them. -/
theorem undeclarable_withOutputs_iff {before : List Nat} {inverted : Nat → Bool} :
    Undeclarable (c.withOutputs (before.map fun u => ⟨u, inverted u⟩)) [] w cause ↔
      Undeclarable c before w cause := by
  have hout : (c.withOutputs (before.map fun u => ⟨u, inverted u⟩)).isOutput w = true ↔
      c.isOutput w = true ∨ w ∈ before := by
    rw [isOutput_withOutputs, List.map_map]
    simp
  constructor
  · intro h
    cases h with
    | unknown hreg => exact .unknown hreg
    | declared hreg h => exact .declared hreg (hout.mp (h.resolve_right List.not_mem_nil))
  · intro h
    cases h with
    | unknown hreg => exact .unknown hreg
    | declared hreg h => exact .declared hreg (.inl (hout.mpr h))

/-- Bits that were written one after the other are those of registered wires. -/
theorem registered_of_run {bits : List (Nat × Bool)} (h : runSteps Word.assignBit c bits = ⟨d, none⟩) :
    ∀ p ∈ bits, c.wires.contains p.1 = true := by
  induction bits generalizing c with
  | nil => exact nofun
  | cons p rest ih =>
    obtain ⟨c', hp, h⟩ := runSteps_cons_done_iff.mp h
    obtain ⟨hreg, rfl⟩ := assign_ok_iff.mp (mapError_ok_iff.mp hp)
    refine List.forall_mem_cons.mpr ⟨hreg, fun q hq => ?_⟩
    rw [← WireStore.contains_write c.wires p.1 q.1 p.2]
    exact ih h q hq

end Circuit

namespace Word

variable {x : Word} {v : Int} {e : IntegerError}

/-- A word is not declared to its end exactly if one of its bits cannot be declared, and then the bits
before it are. -/
theorem markOutput_failed_iff :
    x.markOutput c = ⟨d, some cause⟩ ↔
      ∃ before w after, x.bits = before ++ w :: after ∧ before.Nodup ∧
        (∀ u ∈ before, c.wires.contains u = true ∧ c.isOutput u = false) ∧
        Undeclarable c before w cause ∧
        d = c.withOutputs (before.map fun u => ⟨u, polarity c u⟩) := by
  rw [markOutput_eq]
  constructor
  · intro h
    obtain ⟨before, w, after, hx, hrun, herror⟩ := runSteps_failed h
    obtain ⟨hn, hbefore⟩ := declared_of_run hrun
    rw [run_addOutput hn hbefore] at hrun
    cases hrun
    exact ⟨before, w, after, hx, hn, hbefore,
      undeclarable_withOutputs_iff.mp (addOutput_undeclarable_iff.mp herror), rfl⟩
  · rintro ⟨before, w, after, hx, hn, hbefore, hw, rfl⟩
    rw [hx]
    exact runSteps_fails (run_addOutput hn hbefore)
      (addOutput_undeclarable_iff.mpr (undeclarable_withOutputs_iff.mpr hw)) after

/-- A word is not written to its end exactly if its value does not fit, and nothing is written then, or
one of its wires is not registered, and then the bits before the first such are written. -/
theorem assign_failed_iff :
    x.assign c v = ⟨d, some e⟩ ↔
      (encode v x.width = .error e ∧ e = .tooWide v x.width ∧ d = c) ∨
        ∃ before w after bits bit rest, x.bits = before ++ w :: after ∧
          encode v x.width = .ok (bits ++ bit :: rest) ∧ before.length = bits.length ∧
          (∀ u ∈ before, c.wires.contains u = true) ∧ c.wires.contains w = false ∧
          e = .ofCause (.wire (.notFound w)) ∧
          d = { c with wires := Values.writeAll c.wires (before.zip bits) } := by
  constructor
  · intro h
    rw [assign] at h
    cases hv : encode v x.width with
    | error e' =>
      rw [hv] at h
      cases h
      exact .inl ⟨rfl, encode_error hv, rfl⟩
    | ok all =>
      rw [hv] at h
      obtain ⟨written, ⟨w, bit⟩, left, hzip, hrun, herror⟩ := runSteps_failed h
      obtain ⟨before, open', bits, rest, hlength, hx, rfl, rfl, hrest⟩ := List.zip_eq_append_iff.mp hzip
      obtain ⟨after, rest', rfl, rfl, -⟩ := List.zip_eq_cons_iff.mp hrest.symm
      have hwritten := registered_of_run hrun
      rw [run_assignBit hwritten] at hrun
      cases hrun
      obtain ⟨hreg, rfl⟩ := assignBit_error_iff.mp herror
      refine .inr ⟨before, w, after, bits, bit, rest', hx, rfl, hlength, fun u hu => ?_, ?_, rfl, rfl⟩
      · obtain ⟨p, hp, rfl⟩ := List.mem_map.mp ((List.map_fst_zip (Nat.le_of_eq hlength)).symm ▸ hu)
        exact hwritten p hp
      · rwa [WireStore.contains_eq, Values.polarity?_writeAll, ← WireStore.contains_eq] at hreg
  · rintro (⟨hv, -, rfl⟩ | ⟨before, w, after, bits, bit, rest, hx, hv, hlength, hbefore, hw, rfl, rfl⟩)
    · rw [assign, hv]
    · have hwritten : ∀ p ∈ before.zip bits, c.wires.contains p.1 = true := fun p hp =>
        hbefore _ (List.of_mem_zip hp).1
      have hassign : x.assign c v = runSteps assignBit c (x.bits.zip (bits ++ bit :: rest)) := by
        rw [assign, hv]
      rw [hassign, hx, List.zip_append hlength, List.zip_cons_cons]
      refine runSteps_fails (run_assignBit hwritten) (assignBit_error_iff.mpr ⟨?_, rfl⟩) _
      rwa [WireStore.contains_eq, Values.polarity?_writeAll, ← WireStore.contains_eq]

end Word

/-! ### All actions -/

/-- Executing changes raw values alone, in whatever circuit. -/
theorem Circuit.sameStructure_execute (c : Circuit) : SameStructure c c.execute.state := by
  refine ⟨fun w => ?_, rfl⟩
  have hwrites := writes_settle c
  change c.settle.state.polarity? w = c.wires.polarity? w
  generalize c.settle.state = s at hwrites
  induction hwrites with
  | refl => rfl
  | tail _ step ih =>
    obtain ⟨v, value, -, rfl⟩ := step
    rw [WireStore.polarity?_write, ih]

namespace Action

variable {e : IntegerError}

theorem ofAttempt_eq_failed_iff {ε : Type} {toError : ε → IntegerError} {run : Attempt Circuit ε} :
    Outcome.ofAttempt toError run = .failed e d ↔ ∃ e', run = ⟨d, some e'⟩ ∧ e = toError e' := by
  rcases run with ⟨state, _ | e'⟩
  · simp [Outcome.ofAttempt]
  · constructor
    · rintro ⟨⟩
      exact ⟨e', rfl, rfl⟩
    · rintro ⟨e', ⟨⟩, rfl⟩
      rfl

/-- A step that does nothing if it fails leaves the circuit from before. -/
theorem ofStep_eq_failed_iff {ε : Type} {toError : ε → IntegerError} {x : Except ε Circuit} :
    Outcome.ofAttempt toError (.ofStep c x) = .failed e d ↔
      ∃ e', x = .error e' ∧ e = toError e' ∧ d = c := by
  cases x with
  | ok a => simp [Outcome.ofAttempt, Attempt.ofStep]
  | error e' => simp [Outcome.ofAttempt, Attempt.ofStep, eq_comm]

/-- Building never fails: it answers or is at fault. -/
theorem not_failed_ofBuild {step : Build Answer} : Outcome.ofBuild step c ≠ .failed e d := by
  intro h
  rw [Outcome.ofBuild] at h
  split at h
  · cases h
  · cases h

theorem constantWord_eq_failed_iff {width : Nat} {v : Int} :
    (Operation.constantWord width v).run c = .failed e d ↔
      encode v width = .error e ∧ e = .tooWide v width ∧ d = c := by
  rw [Operation.run, Word.constant]
  cases hv : encode v width with
  | ok bits =>
    constructor
    · exact fun h => absurd h not_failed_ofBuild
    · rintro ⟨h, -⟩
      cases h
  | error e' =>
    constructor
    · rintro ⟨⟩
      exact ⟨rfl, encode_error hv, rfl⟩
    · rintro ⟨⟨⟩, -, rfl⟩
      rfl

/-- An operation fails exactly as it is said to. -/
theorem failed_iff_leaves {op : Operation} :
    op.run c = .failed e d ↔ (Action.operation op).Leaves c d e := by
  cases op with
  | build step => exact iff_false_intro not_failed_ofBuild
  | constantWord width v => exact constantWord_eq_failed_iff
  | addOutput w =>
    rw [Operation.run, makeOutput_eq, ofStep_eq_failed_iff]
    simp only [addOutput_undeclarable_iff, Leaves, ← and_assoc, exists_and_right]
  | markOutput x =>
    rw [Operation.run, ofAttempt_eq_failed_iff]
    simp only [Word.markOutput_failed_iff]
    constructor
    · rintro ⟨cause, ⟨before, w, after, hx, hn, hbefore, hw, hd⟩, he⟩
      exact ⟨before, w, after, cause, hx, hn, hbefore, hw, he, hd⟩
    · rintro ⟨before, w, after, cause, hx, hn, hbefore, hw, he, hd⟩
      exact ⟨cause, ⟨before, w, after, hx, hn, hbefore, hw, hd⟩, he⟩
  | assign w value =>
    rw [Operation.run, ofStep_eq_failed_iff]
    simp only [assign_error_iff, Leaves]
    constructor
    · rintro ⟨cause, ⟨hreg, rfl⟩, he, hd⟩
      exact ⟨hreg, he, hd⟩
    · rintro ⟨hreg, he, hd⟩
      exact ⟨_, ⟨hreg, rfl⟩, he, hd⟩
  | assignWord x v =>
    rw [Operation.run, ofAttempt_eq_failed_iff]
    constructor
    · rintro ⟨e', hrun, rfl⟩
      exact Word.assign_failed_iff.mp hrun
    · exact fun h => ⟨e, Word.assign_failed_iff.mpr h, rfl⟩
  | loadValues text =>
    rw [Operation.run, ofAttempt_eq_failed_iff]
    constructor
    · rintro ⟨e', hrun, rfl⟩
      have hsame := sameStructure_load c text
      rw [hrun] at hsame
      exact ⟨e', hrun, rfl, hsame⟩
    · rintro ⟨e', hrun, he, -⟩
      exact ⟨e', hrun, he⟩
  | execute =>
    rw [Operation.run, ofAttempt_eq_failed_iff]
    constructor
    · rintro ⟨e', hrun, rfl⟩
      have hsame := sameStructure_execute c
      rw [hrun] at hsame
      exact ⟨e', hrun, rfl, hsame⟩
    · rintro ⟨e', hrun, he, -⟩
      exact ⟨e', hrun, he⟩

theorem failure?_iff_leaves {a : Action} : a.failure? c = some (e, d) ↔ a.Leaves c d e := by
  cases a with
  | operation op =>
    rw [← failed_iff_leaves, failure?]
    constructor
    · intro h
      split at h
      · rename_i hop
        cases h
        exact hop
      · cases h
    · intro h
      rw [h]
  | outputValues => simp only [failure?, Leaves, readFailure?_eq_some_iff, outputValues_error_iff]
  | outputBits => simp only [failure?, Leaves, readFailure?_eq_some_iff, outputBits_error_iff]
  | decodeUnsigned x => simp only [failure?, Leaves, readFailure?_eq_some_iff, decodeUnsigned_error_iff]
  | decodeSigned x => simp only [failure?, Leaves, readFailure?_eq_some_iff, decodeSigned_error_iff]

/-- Whatever an action leaves, the core of the circuit is in it. -/
theorem Leaves.sameCore {a : Action} (h : a.Leaves c d e) : SameCore c d := by
  cases a with
  | operation op =>
    cases op with
    | build step => exact h.elim
    | constantWord width v => exact h.2.2 ▸ .refl c
    | addOutput w => exact h.2 ▸ .refl c
    | markOutput x =>
      obtain ⟨before, w, after, cause, -, -, -, -, -, rfl⟩ := h
      exact ⟨fun _ => rfl, fun _ => rfl, rfl⟩
    | assign w value => exact h.2.2 ▸ .refl c
    | assignWord x v =>
      rcases h with ⟨-, -, rfl⟩ | ⟨before, w, after, bits, bit, rest, -, -, -, -, -, -, rfl⟩
      · exact .refl d
      · exact SameStructure.sameCore ⟨Values.polarity?_writeAll _ _, rfl⟩
    | loadValues text =>
      obtain ⟨-, -, -, hsame⟩ := h
      exact hsame.sameCore
    | execute =>
      obtain ⟨-, -, -, hsame⟩ := h
      exact hsame.sameCore
  | outputValues =>
    obtain ⟨-, -, -, rfl⟩ := h
    exact .refl d
  | outputBits =>
    obtain ⟨-, -, -, rfl⟩ := h
    exact .refl d
  | decodeUnsigned x =>
    obtain ⟨-, -, -, rfl⟩ := h
    exact .refl d
  | decodeSigned x =>
    obtain ⟨-, -, -, rfl⟩ := h
    exact .refl d

/-- An action that fails leaves the wires with their polarities, the gates and their tally, the inputs,
the complements and the origin as they are, in every circuit and whatever wires it names. Building does
not fail; assigning a wire, adding an output, a constant, and every reading fail without a trace; a word
that is written or declared keeps the bits before the first that cannot be. -/
theorem failure_leaves_core (c d : Circuit) (a : Action) (e : IntegerError) :
    (a.failure? c = some (e, d) ↔ a.Leaves c d e) ∧ (a.failure? c = some (e, d) → SameCore c d) :=
  ⟨failure?_iff_leaves, fun h => (failure?_iff_leaves.mp h).sameCore⟩

/-- A word of two inputs that has the first one again as its last bit. -/
theorem failure_leaves_core_repeated :
    ∃ c d, Reachable c ∧
      (Action.operation (.markOutput ⟨[0, 1, 0]⟩)).failure? c =
        some (.ofCause (.duplicateOutput 0), d) ∧
      d.outputs = [⟨0, false⟩, ⟨1, false⟩] ∧ SameCore c d := by
  obtain ⟨c, hc, d, hd, hout⟩ : ∃ c, Reachable c ∧
      ∃ d, (Action.operation (.markOutput ⟨[0, 1, 0]⟩)).failure? c =
        some (.ofCause (.duplicateOutput 0), d) ∧ d.outputs = [⟨0, false⟩, ⟨1, false⟩] :=
    ⟨_, Reachable.empty.operated (.build (.issueInputs 2)) rfl, _, rfl, rfl⟩
  exact ⟨c, d, hc, hd, hout, (failure_leaves_core c d _ _).2 hd⟩

end Action

end GateNet
