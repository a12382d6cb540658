import GateNet.Proofs.Command.Compile

/-!
What a compiled circuit delivers. Its result is declared as outputs, one for each bit, and an execution
gives them the bits. The circuit that was executed can be written as a netlist with a line for every
wire and a value file, and the circuit that is read back from them delivers the same bits.
-/

namespace GateNet.Command

open Circuit hiding value
open Netlist Text TwosComplement

/-- The circuit with the wires of a word as its outputs, each read as gates read it. -/
def delivering (c : Circuit) (x : Word) : Circuit :=
  c.withOutputs (x.bits.map fun w => ⟨w, polarity c w⟩)

/-- The circuit after its execution, with the wires of a word as its outputs. -/
def delivered (c : Circuit) (x : Word) : Circuit :=
  { delivering c x with wires := c.settle.state }

/-- A result in plain words, from its bits: a truth value, or the signed number. -/
def Arithmetic.words (operation : Arithmetic) (bits : List Bool) : String :=
  if operation.isComparison then (if bits = [true] then "true" else "false")
  else toString (signed (TwosComplement.value bits) bits.length)

variable {c : Circuit} {x : Word} {bits : List Bool}

/-! ### Declaring the outputs -/

theorem Compiled.markOutput (h : Compiled c x bits) :
    x.markOutput c = ⟨delivering c x, none⟩ :=
  h.toWellFormed.markOutput h.outputs h.distinct fun w hw => by
    obtain ⟨-, hreg, -⟩ := exists_of_forall₂ h.shows hw
    exact hreg

theorem Compiled.outputs_delivered (h : Compiled c x bits) :
    (delivered c x).outputs = x.bits.map fun w => ⟨w, polarity c w⟩ := by
  rw [delivered, delivering, withOutputs, h.outputs, List.nil_append]

/-! ### Delivering the bits -/

theorem Compiled.execute (h : Compiled c x bits) :
    (delivering c x).execute = ⟨delivered c x, none⟩ := by
  have hok : c.settle.failure = none := h.executes
  show (⟨_, c.settle.failure⟩ : Attempt Circuit Cause) = _
  rw [hok]
  rfl

/-- The raw values of the result, under its polarities, are its bits. -/
theorem Compiled.raw (h : Compiled c x bits) :
    List.Forall₂ (fun w bit => ∃ raw, c.settle.state.raw? w = some raw ∧
      bit = (raw ^^ polarity c w)) x.bits bits := by
  refine h.shows.imp fun w bit hw => ?_
  obtain ⟨-, hseen⟩ := hw
  have hsettled : c.settle.state.seen? w = some bit := hseen
  rw [WireStore.seen?_eq, h.polarity?_settle] at hsettled
  obtain ⟨p, hp, hseen⟩ := Option.bind_eq_some_iff.mp hsettled
  obtain ⟨raw, hraw, rfl⟩ := Option.map_eq_some_iff.mp hseen
  refine ⟨raw, hraw, ?_⟩
  rw [polarity_eq, hp]
  rfl

theorem Compiled.outputBits (h : Compiled c x bits) :
    (delivered c x).outputBits = .ok (bitText bits) := by
  refine map_ok_iff.mpr ⟨bits, mapM_ok_of_forall₂ ?_, rfl⟩
  rw [h.outputs_delivered]
  refine List.forall₂_map_left_iff.mpr (h.raw.imp fun w bit hw => ?_)
  exact outputValue_ok_iff.mpr hw

/-- The wires of the result read as its bits. -/
theorem Compiled.decodeSigned (h : Compiled c x bits) :
    x.decodeSigned (delivered c x) = .ok (signed (TwosComplement.value bits) bits.length) := by
  have hread : x.bits.mapM (Word.readBit (delivered c x)) = .ok bits := by
    refine mapM_ok_of_forall₂ (h.shows.imp fun w bit hw => ?_)
    obtain ⟨hreg, hseen⟩ := hw
    have hvalue : (delivered c x).value w = .ok (some bit) := by
      refine value_ok_iff.mpr ⟨?_, hseen.symm⟩
      show c.settle.state.contains w = true
      rwa [WireStore.contains_eq, h.polarity?_settle, ← WireStore.contains_eq]
    rw [Word.readBit, hvalue]
    rfl
  have hwidth : x.width = bits.length := h.shows.length_eq
  rw [Word.decodeSigned, Word.decodeUnsigned, hread, hwidth]
  rfl

theorem bitText_eq_one {bit : Bool} : bitText [bit] = "1" ↔ bit = true := by
  cases bit <;> decide

/-- What is printed in plain words follows from the bits. -/
theorem Compiled.reading (h : Compiled c x bits) {operation : Arithmetic} {width : Nat}
    (hlen : bits.length = operation.bits width) :
    reading operation x (bitText bits) (delivered c x) = .ok (operation.words bits) := by
  rw [Command.reading, Arithmetic.words]
  cases ho : operation.isComparison with
  | true =>
    obtain ⟨bit, rfl⟩ : ∃ bit, bits = [bit] := by
      rw [Arithmetic.bits, ho] at hlen
      exact List.length_eq_one_iff.mp hlen
    simp only [if_true, bitText_eq_one, List.cons.injEq, and_true]
    rfl
  | false =>
    simp only [Bool.false_eq_true, if_false, h.decodeSigned]
    rfl

/-! ### Reading it back -/

variable {r : SynthRequest} {replies : List Reply}

/-- The circuit that delivers the result comes of the steps of the plan. -/
theorem Compiles.delivering (h : Compiles r x c bits replies) :
    Runs (plan r.operation r.width) (replies ++ [.ok .nothing]) (delivering c x) := by
  refine .synthesis h.runs ?_ ?_
  · rw [h.next]
    trivial
  · rw [h.next, Operation.run, h.compiled.markOutput]
    rfl

theorem Compiles.evaluated (h : Compiles r x c bits replies) : Evaluated (delivered c x) :=
  h.delivering.reachable.evaluated h.compiled.execute h.compiled.outputBits

/-- Its execution is no further step. -/
theorem Compiles.executed (h : Compiles r x c bits replies) :
    Runs (plan r.operation r.width) (replies ++ [.ok .nothing]) (delivered c x) := by
  refine .supply h.delivering ⟨.execute, id, ?_, fun w hw => hw.elim⟩
  rw [Operation.run, circuit?_ofAttempt, h.compiled.execute]

theorem Compiles.sound (h : Compiles r x c bits replies) : Sound (delivered c x) :=
  h.executed.reachable.sound

theorem Compiled.whole_delivered (h : Compiled c x bits) : Whole (delivered c x) := by
  intro w ho
  refine h.whole w ⟨?_, ho.not_input, ho.not_driven, ?_, ho.unpaired⟩
  · have hreg : c.settle.state.contains w = true := ho.registered
    rwa [WireStore.contains_eq, h.polarity?_settle, ← WireStore.contains_eq] at hreg
  · by_contra hknown
    have hop : Operated c c.execute.state := Proceeds.executed.operated
    exact hop.raw?_known hknown ho.unknown

/-- A netlist is at least as long as it has lines. -/
theorem length_le_render (lines : List String) :
    lines.length ≤ (String.join (lines.map (· ++ "\n"))).utf8ByteSize := by
  induction lines with
  | nil => exact Nat.zero_le _
  | cons line rest ih =>
    have hbreak : "\n".utf8ByteSize = 1 := rfl
    rw [List.map_cons, String.join_cons, String.utf8ByteSize_append, String.utf8ByteSize_append,
      List.length_cons]
    omega

/-- A netlist without orphans has a line for every wire. -/
theorem numWires_le_render (h : WellFormed c) (hwhole : Whole c) :
    c.numWires ≤ (Netlist.render c).utf8ByteSize := by
  have hlines := length_le_render (heading c :: (statements c).map Statement.text)
  have hsubset : c.wires.cells.keys ⊆ (sources c).map Prod.fst ++ c.gateList.map Gate.out := by
    intro w hw
    rw [List.mem_append, h.mem_driven]
    exact written_of_not_orphan (WireStore.mem_keys.mp hw) (hwhole w)
  have hkeys := (List.subperm_of_subset c.wires.keys_nodup hsubset).length_le
  have hcount : c.numWires = c.wires.cells.keys.length := Std.ExtTreeMap.length_keys.symm
  have hstatements : (statements c).length =
      (sources c).length + c.outputs.length + c.gateList.length := by
    simp [statements, Nat.add_assoc]
  rw [List.length_append, List.length_map, List.length_map] at hkeys
  rw [List.length_cons, List.length_map] at hlines
  rw [Netlist.render, hcount]
  omega

/-- What was written is read back, and delivers the same bits, if the netlist is no longer than a file
can be. -/
theorem Compiles.reread (h : Compiles r x c bits replies)
    (hsize : (Netlist.render (delivered c x)).utf8ByteSize < 9223372036854775808) :
    ∃ p l e, parse (Netlist.render (delivered c x)) = .ok p ∧
      Values.load p (Values.render (delivered c x)) = ⟨l, none⟩ ∧ l.execute = ⟨e, none⟩ ∧
      e.outputBits = .ok (bitText bits) := by
  have hsound := h.sound
  have heval := h.evaluated
  have hnumber := numWires_le_render hsound.toWellFormed h.compiled.whole_delivered
  have horigin : (delivered c x).origin ≠ .netlist := h.compiled.origin_ne
  have hlimit : ∀ w, (delivered c x).wires.contains w = true → 2 * w + 1 < numberLimit := by
    intro w hw
    have hlt := (hsound.issued horigin w).mp hw
    rw [← hsound.numWires_eq horigin] at hlt
    rw [numberLimit]
    omega
  obtain ⟨p, hp⟩ := (hsound.can_parse_render hlimit).mpr ⟨h.compiled.named, heval.written⟩
  obtain ⟨-, hcons, hdesc⟩ := hsound.parse_render hlimit hp
  obtain ⟨l, e, hl, he, houtputs, -, hraw⟩ :=
    heval.reread_execute hdesc (WellFormed.ofNetlist hdesc hcons) hlimit
  exact ⟨p, l, e, hp, hl, he, outputBits_congr houtputs hraw h.compiled.outputBits⟩

end GateNet.Command
