import GateNet.Proofs.BitString
import GateNet.Proofs.Gadget.Words
import GateNet.Proofs.Netlist.RoundTrip

/-!
Words that are given values, and words that are read. A word can be read from its wires, or be declared
as outputs and read from the text that these print. An output keeps the polarity of its wire from when
it was declared, and a registered wire never turns, so the two readings are the same number, and they
are missing for the same wire.
-/

namespace GateNet

open Relation
open Circuit hiding value
open TwosComplement Netlist

namespace Circuit

variable {c d : Circuit}

/-! ### Giving values -/

/-- Bits for registered wires are all written. -/
theorem run_assignBit {bits : List (Nat × Bool)} (h : ∀ p ∈ bits, c.wires.contains p.1 = true) :
    runSteps Word.assignBit c bits =
      ⟨{ c with wires := Values.writeAll c.wires bits }, none⟩ := by
  induction bits generalizing c with
  | nil => rfl
  | cons p rest ih =>
    have hbit : Word.assignBit c p = .ok { c with wires := c.wires.write p.1 p.2 } :=
      mapError_ok_iff.mpr (assign_ok_iff.mpr ⟨h p (List.mem_cons_self ..), rfl⟩)
    rw [runSteps_cons_ok hbit, ih fun q hq => ?_]
    · rfl
    · rw [WireStore.contains_write]
      exact h q (List.mem_cons_of_mem p hq)

/-- The wires of the word are inputs, and they hold the bits of the number. -/
def Given (c : Circuit) (x : Word) (n : Nat) : Prop :=
  ∃ bits, List.Forall₂ (fun w bit => c.isInput w = true ∧ c.wires.raw? w = some bit) x.bits bits ∧
    TwosComplement.value bits = n

theorem Given.known {x : Word} {n w : Nat} (h : Given c x n) (hw : w ∈ x.bits) :
    c.isInput w = true ∧ c.wires.raw? w ≠ none := by
  obtain ⟨bits, hx, -⟩ := h
  obtain ⟨bit, hi, hraw⟩ := exists_of_forall₂ hx hw
  rw [hraw]
  exact ⟨hi, Option.some_ne_none _⟩

/-- A value that fits is given to distinct inputs, and nothing else changes. -/
theorem WellFormed.assign_ok (h : WellFormed c) {x : Word} {v : Int} (hw : 1 ≤ x.width)
    (hv : Fits v x.width) (hi : ∀ w ∈ x.bits, c.isInput w = true) (hn : x.bits.Nodup) :
    ∃ d, x.assign c v = ⟨d, none⟩ ∧ SameStructure c d ∧ Given d x (residue v x.width) ∧
      ∀ w, w ∉ x.bits → d.wires.raw? w = c.wires.raw? w := by
  generalize hpairs : x.bits.zip (bitsOf x.width (residue v x.width)) = pairs
  have hfst : pairs.map Prod.fst = x.bits := by
    rw [← hpairs]
    exact List.map_fst_zip (Nat.le_of_eq (length_bitsOf ..).symm)
  have hreg : ∀ p ∈ pairs, c.wires.contains p.1 = true := fun p hp =>
    h.input_registered _ (hi _ (hfst ▸ List.mem_map_of_mem hp))
  have hassign : x.assign c v = ⟨{ c with wires := Values.writeAll c.wires pairs }, none⟩ := by
    rw [Word.assign, encode_of_fits hw hv, ← run_assignBit hreg, ← hpairs]
  refine ⟨_, hassign, ⟨Values.polarity?_writeAll _ _, rfl⟩, ⟨bitsOf x.width (residue v x.width), ?_, ?_⟩,
    fun w hw => Values.raw?_writeAll_of_not_mem (hfst ▸ hw)⟩
  · refine List.forall₂_iff_zip.mpr ⟨(length_bitsOf ..).symm, fun {w bit} hp => ?_⟩
    rw [hpairs] at hp
    exact ⟨hi w (hfst ▸ List.mem_map_of_mem hp), Values.raw?_writeAll (hfst ▸ hn) hp (hreg _ hp)⟩
  · rw [value_bitsOf, Nat.mod_eq_of_lt (residue_lt v x.width)]

/-! ### Declaring words -/

/-- Where there are no outputs, none is noted. -/
theorem WellFormed.isOutput_eq_false (h : WellFormed c) (hout : c.outputs = []) (w : Nat) :
    c.isOutput w = false := by
  rw [← Bool.not_eq_true, h.output_noted, hout]
  exact List.not_mem_nil

/-- Distinct wires are declared in a circuit without outputs. -/
theorem WellFormed.markOutput (h : WellFormed c) (hout : c.outputs = []) {x : Word} (hn : x.bits.Nodup)
    (hreg : ∀ w ∈ x.bits, c.wires.contains w = true) :
    x.markOutput c = ⟨c.withOutputs (x.bits.map fun w => ⟨w, polarity c w⟩), none⟩ := by
  rw [Word.markOutput_eq]
  exact run_addOutput hn fun w hw => ⟨hreg w hw, h.isOutput_eq_false hout w⟩

/-- A step never turns a registered wire. -/
theorem Keeps.polarity {w : Nat} (h : Keeps c d) (hw : c.wires.contains w = true) :
    polarity d w = polarity c w := by
  rw [polarity_eq, polarity_eq, h.polarity? w hw]

theorem operations_keep (hops : ReflTransGen Operated c d) :
    Keeps c d ∧ (d.origin = .netlist ↔ c.origin = .netlist) := by
  induction hops with
  | refl => exact ⟨.refl c, Iff.rfl⟩
  | tail _ hop ih => exact ⟨ih.1.trans hop.keeps, hop.netlist_iff.trans ih.2⟩

end Circuit

namespace Word

variable {c d e : Circuit} {x : Word} {w : Nat}

/-- The outputs are the bits of the word, lowest first, each in the polarity of its wire. -/
structure Declared (x : Word) (c : Circuit) : Prop where
  registered : ∀ w ∈ x.bits, c.wires.contains w = true
  outputs : c.outputs = x.bits.map fun w => ⟨w, polarity c w⟩

/-- The word is declared once its bits are the only outputs. -/
theorem declared_withOutputs (hout : c.outputs = []) (hreg : ∀ w ∈ x.bits, c.wires.contains w = true) :
    Declared x (c.withOutputs (x.bits.map fun w => ⟨w, polarity c w⟩)) := by
  refine ⟨hreg, ?_⟩
  rw [withOutputs, hout, List.nil_append]
  rfl

/-- A declared word stays declared until there are other outputs. -/
theorem Declared.keep (h : Declared x c) (keeps : Keeps c d) (hout : d.outputs = c.outputs) :
    Declared x d where
  registered w hw := keeps.contains (h.registered w hw)
  outputs := by
    rw [hout, h.outputs]
    refine List.map_congr_left fun w hw => ?_
    rw [keeps.polarity (h.registered w hw)]

/-! ### Reading words -/

/-- A wire without a value is not read. -/
theorem readBit_error_iff {cause : Cause} (hw : d.wires.contains w = true) :
    readBit d w = .error cause ↔ d.value w = .ok none ∧ cause = .unassignedOutput w := by
  have hvalue : d.value w = .ok (d.wires.seen? w) := value_ok_iff.mpr ⟨hw, rfl⟩
  rw [readBit, hvalue]
  cases d.wires.seen? w with
  | none =>
    constructor
    · intro h
      exact ⟨rfl, (Except.error.inj h).symm⟩
    · rintro ⟨-, rfl⟩
      rfl
  | some bit =>
    constructor
    · intro h
      cases h
    · rintro ⟨h, -⟩
      cases h

/-- An output in the polarity of its wire delivers what the wire is read as. -/
theorem outputValue_eq_readBit (hw : d.wires.contains w = true) :
    d.outputValue ⟨w, polarity d w⟩ = readBit d w := by
  obtain ⟨cell, hc⟩ := WireStore.contains_iff.mp hw
  have hcell : d.cell w = .ok cell := mapError_ok_iff.mpr (WireStore.cell_eq_ok_iff.mpr hc)
  have hvalue : d.value w = .ok cell.effective := by
    refine value_ok_iff.mpr ⟨hw, ?_⟩
    rw [WireStore.seen?, hc]
    rfl
  have hpolarity : polarity d w = cell.polarity.inverted := by rw [polarity, hc]
  rw [outputValue, readBit, hcell, hvalue, hpolarity]
  cases hraw : cell.value with
  | none => simp [Cell.effective, hraw, bind, Except.bind]
  | some raw => simp [Cell.effective, hraw, bind, Except.bind, Polarity.resolve]

theorem mapM_outputValue {ws : List Nat} (h : ∀ w ∈ ws, d.wires.contains w = true) :
    (ws.map fun w => (⟨w, polarity d w⟩ : Literal)).mapM d.outputValue = ws.mapM (readBit d) := by
  induction ws with
  | nil => rfl
  | cons w rest ih =>
    rw [List.map_cons, List.mapM_cons, List.mapM_cons,
      outputValue_eq_readBit (h w (List.mem_cons_self ..)),
      ih fun u hu => h u (List.mem_cons_of_mem w hu)]

namespace Declared

/-- The outputs deliver the bits that the word is read from. -/
theorem outputBits_eq (h : Declared x d) :
    d.outputBits = (x.bits.mapM (readBit d)).map bitText := by
  rw [outputBits, outputValues, h.outputs, mapM_outputValue h.registered]

/-- A word all bits of which are read has its readings, and the outputs print them. -/
theorem readings (h : Declared x d) (hpos : 1 ≤ x.width) {bits : List Bool}
    (hbits : x.bits.mapM (readBit d) = .ok bits) :
    d.outputBits = .ok (bitText bits) ∧
      unsignedOfText (bitText bits) = .ok (TwosComplement.value bits) ∧
      x.decodeUnsigned d = .ok (TwosComplement.value bits) ∧
      signedOfText (bitText bits) = .ok (signed (TwosComplement.value bits) x.width) ∧
      x.decodeSigned d = .ok (signed (TwosComplement.value bits) x.width) := by
  have hlen : x.width = bits.length := (forall₂_of_mapM_ok hbits).length_eq
  have hb : bits ≠ [] := by
    rw [← List.length_pos_iff, ← hlen]
    exact hpos
  have hread : x.decodeUnsigned d = .ok (TwosComplement.value bits) := by
    rw [decodeUnsigned, hbits]
    rfl
  refine ⟨?_, unsignedOfText_bitText hb, hread, ?_, decodeSigned_ok_iff.mpr ⟨_, hread, rfl⟩⟩
  · rw [h.outputBits_eq, hbits]
    rfl
  · rw [hlen]
    exact signedOfText_bitText hb

/-- A word with a bit that is not read has no reading, for the same reason everywhere. -/
theorem unread (h : Declared x d) {cause : Cause} (hbits : x.bits.mapM (readBit d) = .error cause) :
    d.outputBits = .error cause ∧ x.decodeUnsigned d = .error cause ∧
      x.decodeSigned d = .error cause := by
  have hread : x.decodeUnsigned d = .error cause := by
    rw [decodeUnsigned, hbits]
    rfl
  refine ⟨?_, hread, ?_⟩
  · rw [h.outputBits_eq, hbits]
    rfl
  · rw [decodeSigned, hread]
    rfl

/-- The outputs and the wires are read as the same numbers, or neither are, for the lowest bit that has
no value. -/
theorem agree (h : Declared x d) (hpos : 1 ≤ x.width) :
    (∃ text n z, d.outputBits = .ok text ∧
      unsignedOfText text = .ok n ∧ x.decodeUnsigned d = .ok n ∧
      signedOfText text = .ok z ∧ x.decodeSigned d = .ok z) ∨
    ∃ before w after, x.bits = before ++ w :: after ∧
      (∀ u ∈ before, ∃ bit, d.value u = .ok (some bit)) ∧ d.value w = .ok none ∧
      d.outputBits = .error (.unassignedOutput w) ∧
      x.decodeUnsigned d = .error (.unassignedOutput w) ∧
      x.decodeSigned d = .error (.unassignedOutput w) := by
  rcases mapM_ok_or_first (readBit d) x.bits with
    ⟨bits, hbits⟩ | ⟨before, w, after, cause, hx, hbefore, hw, hall⟩
  · obtain ⟨htext, hunsigned, hn, hsigned, hz⟩ := h.readings hpos hbits
    exact .inl ⟨_, _, _, htext, hunsigned, hn, hsigned, hz⟩
  · have hmem : w ∈ x.bits := hx ▸ List.mem_append_right before (List.mem_cons_self ..)
    obtain ⟨hvalue, rfl⟩ := (readBit_error_iff (h.registered w hmem)).mp hw
    obtain ⟨htext, hunsigned, hsigned⟩ := h.unread hall
    refine .inr ⟨before, w, after, hx, fun u hu => ?_, hvalue, htext, hunsigned, hsigned⟩
    obtain ⟨bit, hbit⟩ := hbefore u hu
    have hseen := readBit_ok_iff.mp hbit
    exact ⟨bit, value_ok_iff.mpr ⟨WireStore.contains_of_seen? hseen, hseen.symm⟩⟩

/-- Inputs of a circuit that is built up are read as the value that they are given. -/
theorem read_assigned (h : Declared x d) (hc : Complemented d) (ho : d.origin ≠ .netlist)
    (hpos : 1 ≤ x.width) (hn : x.bits.Nodup) (hi : ∀ w ∈ x.bits, d.isInput w = true) {v : Int}
    (hv : Fits v x.width) :
    ∃ e text, x.assign d v = ⟨e, none⟩ ∧ e.outputBits = .ok text ∧
      unsignedOfText text = .ok (residue v x.width) ∧
      x.decodeUnsigned e = .ok (residue v x.width) := by
  obtain ⟨e, hassign, same, ⟨bits, hx, hvalue⟩, -⟩ := hc.toWellFormed.assign_ok hpos hv hi hn
  have hstep : Operated d e := ⟨.assignWord x v, by rw [Operation.run, circuit?_ofAttempt, hassign]⟩
  have he := (hc.operated hstep).1
  have hbuilt : e.origin ≠ .netlist := fun hn => ho (hstep.netlist_iff.mp hn)
  -- an input is seen as its raw value, for it is registered as plain
  have hbits : x.bits.mapM (readBit e) = .ok bits := by
    refine mapM_ok_of_forall₂ (hx.imp fun w bit hw => ?_)
    obtain ⟨hinput, hraw⟩ := hw
    rw [readBit_ok_iff, he.seen?_eq hbuilt (he.input_undriven w hinput), hraw]
  have hdeclared : Declared x e := h.keep hstep.keeps (by rw [same.rest])
  obtain ⟨htext, hunsigned, hread, -⟩ := hdeclared.readings hpos hbits
  rw [hvalue] at hunsigned hread
  exact ⟨e, _, hassign, htext, hunsigned, hread⟩

end Declared

/-- A word of distinct wires can be declared in a circuit without outputs. Whatever happens to the
circuit later, other outputs apart, the text of the outputs and the wires are read as the same numbers,
or they cannot be read for the same reason, the lowest bit that has no value. Inputs can be given every
value that fits, and both unsigned readings are its residue then. -/
theorem readings_agree (hc : Reachable c) (hout : c.outputs = []) (hpos : 1 ≤ x.width)
    (hn : x.bits.Nodup) (hreg : ∀ w ∈ x.bits, c.wires.contains w = true) :
    (x.markOutput c).failure = none ∧
      ∀ d, ReflTransGen Operated (x.markOutput c).state d →
        d.outputs = (x.markOutput c).state.outputs →
        ((∃ text n z, d.outputBits = .ok text ∧
            unsignedOfText text = .ok n ∧ x.decodeUnsigned d = .ok n ∧
            signedOfText text = .ok z ∧ x.decodeSigned d = .ok z) ∨
          ∃ before w after, x.bits = before ++ w :: after ∧
            (∀ u ∈ before, ∃ bit, d.value u = .ok (some bit)) ∧ d.value w = .ok none ∧
            d.outputBits = .error (.unassignedOutput w) ∧
            x.decodeUnsigned d = .error (.unassignedOutput w) ∧
            x.decodeSigned d = .error (.unassignedOutput w)) ∧
        (c.origin ≠ .netlist → (∀ w ∈ x.bits, c.isInput w = true) → ∀ v, Fits v x.width →
          ∃ e text, x.assign d v = ⟨e, none⟩ ∧ e.outputBits = .ok text ∧
            unsignedOfText text = .ok (residue v x.width) ∧
            x.decodeUnsigned e = .ok (residue v x.width)) := by
  have hmark := hc.wellFormed.markOutput hout hn hreg
  generalize hm : c.withOutputs (x.bits.map fun w => ⟨w, polarity c w⟩) = m at hmark
  have declared : Declared x m := hm ▸ declared_withOutputs hout hreg
  have hmarked : Operated c m := ⟨.markOutput x, by rw [Operation.run, circuit?_ofAttempt, hmark]⟩
  rw [hmark]
  refine ⟨rfl, fun d hd hkept => ?_⟩
  have later : ReflTransGen Operated c d := .head hmarked hd
  obtain ⟨keeps, horigin⟩ := operations_keep later
  have hdeclared := declared.keep (operations_keep hd).1 hkept
  refine ⟨hdeclared.agree hpos, fun ho hi v hv => ?_⟩
  have hinput : ∀ w ∈ x.bits, d.isInput w = true := fun w hw =>
    (keeps.isInput w (hreg w hw)).trans (hi w hw)
  have hcomplemented := (hc.complemented.operations later).1
  exact hdeclared.read_assigned hcomplemented (fun hd => ho (horigin.mp hd)) hpos hn hinput hv

/-- An input and the complement of an exclusive-or, before there are values and after an execution. -/
theorem readings_agree_inverted :
    ∃ c d, Reachable c ∧ polarity c 3 = true ∧ Word.markOutput ⟨[0, 3]⟩ c = ⟨d, none⟩ ∧
      d.outputBits = .error (.unassignedOutput 0) ∧
      decodeUnsigned ⟨[0, 3]⟩ d = .error (.unassignedOutput 0) ∧
      ∃ e, ReflTransGen Operated d e ∧ e.outputBits = .ok "11" ∧
        decodeUnsigned ⟨[0, 3]⟩ e = .ok 3 ∧ decodeSigned ⟨[0, 3]⟩ e = .ok (-1) := by
  obtain ⟨c, hc, hout, hpolarity, hreg, hearly, e, hops, hkept, htext⟩ : ∃ c, Reachable c ∧
      c.outputs = [] ∧ polarity c 3 = true ∧ (∀ w ∈ [0, 3], c.wires.contains w = true) ∧
      (Word.markOutput ⟨[0, 3]⟩ c).state.outputBits = .error (.unassignedOutput 0) ∧
      ∃ e, ReflTransGen Operated (Word.markOutput ⟨[0, 3]⟩ c).state e ∧
        e.outputs = (Word.markOutput ⟨[0, 3]⟩ c).state.outputs ∧ e.outputBits = .ok "11" := by
    have hinputs := Reachable.empty.operated (.build (.issueInputs 2)) rfl
    have hgates := (hinputs.operated (.build (.addGate .xor 0 1)) rfl).operated (.build (.invert 2)) rfl
    exact ⟨_, hgates, rfl, rfl, by decide, rfl, _, .tail (.tail (.tail .refl ⟨.assign 0 true, rfl⟩)
      ⟨.assign 1 true, rfl⟩) ⟨.execute, rfl⟩, rfl, rfl⟩
  obtain ⟨hmark, hlater⟩ := readings_agree (x := ⟨[0, 3]⟩) hc hout (by decide) (by decide) hreg
  refine ⟨c, _, hc, hpolarity, congrArg (Attempt.mk _) hmark, hearly, ?_, e, hops, htext, ?_⟩
  · rcases (hlater _ .refl rfl).1 with ⟨text, _, _, ht, -⟩ | ⟨-, w, -, -, -, -, ht, hn, -⟩
    · rw [hearly] at ht
      cases ht
    · rw [hearly] at ht
      cases ht
      exact hn
  · rcases (hlater e hops hkept).1 with ⟨text, n, z, ht, hn, hdn, hz, hdz⟩ | ⟨-, w, -, -, -, -, ht, -⟩
    · rw [htext] at ht
      cases ht
      cases hn
      cases hz
      exact ⟨hdn, hdz⟩
    · rw [htext] at ht
      cases ht

end Word

end GateNet
