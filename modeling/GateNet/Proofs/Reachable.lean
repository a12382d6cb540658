import Mathlib.Logic.Relation
import GateNet.Proofs.Assembly
import GateNet.Proofs.Netlist.Reading
import GateNet.Proofs.Outputs
import GateNet.Proofs.Pass
import GateNet.Proofs.Sequence

/-!
The circuits that there are. A circuit starts empty or as a netlist describes it, and operations lead
on from there, also those that fail on the way. Every operation is a sequence of three kinds of change:
the circuit grows, an output is added, a raw value is written. So what holds at the start and is kept
by the three kinds of change holds of every circuit. Only executing writes a wire for which it was
given no value.
-/

namespace GateNet

open Relation

/-- The circuit that an operation leaves to go on with; a fault leaves none. -/
def Outcome.circuit? : Outcome → Option Circuit
  | .answered _ c => some c
  | .failed _ c => some c
  | .faulty _ => none

namespace Operation

/-- The operation is given a value for the wire. -/
def Assigns : Operation → Nat → Prop
  | .assign w _, v => v = w
  | .assignWord x _, v => v ∈ x.bits
  | .loadValues text, v =>
    ∃ line ∈ Text.lines text.toList, ∃ value, Values.ofLine line = .ok (some (v, value))
  | _, _ => False

/-- The operation may write the wire. -/
def Writes (op : Operation) (w : Nat) : Prop := op.Assigns w ∨ op = .execute

end Operation

namespace Circuit

/-- The circuits that operations lead to, from the empty circuit or from that of a netlist. -/
inductive Reachable : Circuit → Prop
  | empty : Reachable {}
  | parsed {text : String} {c : Circuit} : Netlist.parse text = .ok c → Reachable c
  | operated {c d : Circuit} (op : Operation) : Reachable c → (op.run c).circuit? = some d →
      Reachable d

/-- An operation leads from one circuit to the other. -/
def Operated (c d : Circuit) : Prop := ∃ op : Operation, (op.run c).circuit? = some d

/-- A single change to a circuit, which writes no wires but those given. Nothing is built where any may
be written. -/
inductive Change (written : Nat → Prop) : Circuit → Circuit → Prop
  | growth {c d : Circuit} : (∀ w, ¬ written w) → Growth c d → Change written c d
  | output {c : Circuit} {w : Nat} {cell : Cell} : c.wires.cells[w]? = some cell →
      c.isOutput w = false →
      Change written c (c.appendOutput ⟨w, cell.polarity.inverted⟩)
  | write {c : Circuit} {w : Nat} (value : Bool) : written w → c.wires.contains w = true →
      Change written c { c with wires := c.wires.write w value }

theorem Growth.change {c d : Circuit} (step : Growth c d) : Change (fun _ => False) c d :=
  .growth (fun _ => id) step

/-! ### Runs of steps -/

/-- Where every step of a run is made of changes, so is the run, whether it ends early or not. -/
theorem runSteps_reaches {σ α ε : Type} {R : σ → σ → Prop} {step : σ → α → Except ε σ}
    {as : List α} (h : ∀ a ∈ as, ∀ s s', step s a = .ok s' → ReflTransGen R s s') (s : σ) :
    ReflTransGen R s (runSteps step s as).state := by
  induction as generalizing s with
  | nil => exact .refl
  | cons a rest ih =>
    have hrest := ih fun b hb => h b (List.mem_cons_of_mem a hb)
    cases hs : step s a with
    | error e => rw [runSteps_cons_error hs]
    | ok s' =>
      rw [runSteps_cons_ok hs]
      exact (h a (List.mem_cons_self ..) s s' hs).trans (hrest s')

/-- One raw value of a registered wire is written. -/
def Writes (s t : WireStore) : Prop :=
  ∃ w value, s.contains w = true ∧ t = s.write w value

theorem Writes.changes {written : Nat → Prop} (all : ∀ w, written w) (c : Circuit) {s t : WireStore}
    (h : ReflTransGen Writes s t) :
    ReflTransGen (Change written) { c with wires := s } { c with wires := t } := by
  induction h with
  | refl => exact .refl
  | tail _ step ih =>
    obtain ⟨w, value, hw, rfl⟩ := step
    exact ih.tail (.write value (all w) hw)

theorem writes_refreshComplement {s t : WireStore} {pair : Nat × Nat}
    (h : refreshComplement s pair = .ok t) : ReflTransGen Writes s t := by
  obtain ⟨-, h₂, rfl⟩ := refreshComplement_ok_iff.mp h
  unfold follow
  cases hx : s.seen? pair.1 with
  | none => exact .refl
  | some x => exact .single ⟨pair.2, !x, h₂ (by rw [hx]; rfl), rfl⟩

theorem writes_evaluateGate {s t : WireStore} {g : Gate} (h : evaluateGate s g = .ok t) :
    ReflTransGen Writes s t := by
  obtain ⟨a, b, -, -, hc, rfl⟩ := evaluateGate_ok_iff.mp h
  exact .single ⟨g.out, g.eval a b, hc, rfl⟩

theorem writes_settle (c : Circuit) : ReflTransGen Writes c.wires c.settle.state := by
  have first : ReflTransGen Writes c.wires
      (runSteps refreshComplement c.wires c.inputComplements).state :=
    runSteps_reaches (fun _ _ _ _ => writes_refreshComplement) c.wires
  rw [settle]
  split
  · rename_i wires h
    rw [h] at first
    exact first.trans (runSteps_reaches (fun _ _ _ _ => writes_evaluateGate) wires)
  · exact first

/-! ### The operations -/

variable {c d : Circuit} {written : Nat → Prop}

theorem changes_assign {w : Nat} {value : Bool} (hw : written w) (h : c.assign w value = .ok d) :
    ReflTransGen (Change written) c d := by
  obtain ⟨hc, rfl⟩ := assign_ok_iff.mp h
  exact .single (.write value hw hc)

theorem changes_addOutput {w : Nat} (h : c.addOutput w = .ok d) :
    ReflTransGen (Change written) c d := by
  obtain ⟨cell, hc, ho, rfl⟩ := addOutput_ok_iff.mp h
  exact .single (.output hc ho)

theorem changes_execute (all : ∀ w, written w) (c : Circuit) :
    ReflTransGen (Change written) c c.execute.state :=
  Writes.changes all c (writes_settle c)

theorem changes_assignBit {bit : Nat × Bool} (hw : written bit.1) (h : Word.assignBit c bit = .ok d) :
    ReflTransGen (Change written) c d :=
  changes_assign hw (mapError_ok_iff.mp h)

/-- A line of values sets one raw value or none. -/
theorem loadLine_ok_iff {line : List Char × Nat} :
    Values.loadLine c line = .ok d ↔
      (Values.ofLine line.1 = .ok none ∧ d = c) ∨
        ∃ w value, Values.ofLine line.1 = .ok (some (w, value)) ∧ c.wires.contains w = true ∧
          d = { c with wires := c.wires.write w value } := by
  rw [Values.loadLine, mapError_ok_iff, Values.assignLine, bind_ok_iff]
  constructor
  · rintro ⟨_ | ⟨w, value⟩, hl, h⟩
    · exact .inl ⟨hl, (pure_ok_iff.mp h).symm⟩
    · exact .inr ⟨w, value, hl, assign_ok_iff.mp h⟩
  · rintro (⟨hl, rfl⟩ | ⟨w, value, hl, h⟩)
    · exact ⟨none, hl, rfl⟩
    · exact ⟨some (w, value), hl, assign_ok_iff.mpr h⟩

theorem changes_loadLine {line : List Char × Nat}
    (hw : ∀ w value, Values.ofLine line.1 = .ok (some (w, value)) → written w)
    (h : Values.loadLine c line = .ok d) : ReflTransGen (Change written) c d := by
  rcases loadLine_ok_iff.mp h with ⟨-, rfl⟩ | ⟨w, value, hl, hc, rfl⟩
  · exact .refl
  · exact .single (.write value (hw w value hl) hc)

/-- Every line of a text is among its numbered lines. -/
theorem mem_lines_of_numbered {text : String} {line : List Char × Nat}
    (h : line ∈ Text.numberedLines text) : line.1 ∈ Text.lines text.toList := by
  rw [Text.numberedLines] at h
  exact List.fst_mem_of_mem_zipIdx h

theorem changes_load {text : String} (hw : ∀ w, (Operation.loadValues text).Assigns w → written w)
    (c : Circuit) : ReflTransGen (Change written) c (Values.load c text).state :=
  runSteps_reaches (fun _ hline _ _ =>
    changes_loadLine fun w value hl => hw w ⟨_, mem_lines_of_numbered hline, value, hl⟩) c

theorem changes_ofBuild {step : Build Answer} (hs : Build.Grows step) (hn : ∀ w, ¬ written w)
    (h : (Outcome.ofBuild step c).circuit? = some d) : ReflTransGen (Change written) c d := by
  rw [Outcome.ofBuild] at h
  split at h
  · rename_i answer c' hc
    cases h
    exact ReflTransGen.mono (fun _ _ => Change.growth hn) _ _ (hs.growth hc)
  · cases h

/-- A step that is taken or not is what it is if it is taken. -/
theorem changes_ofStep {ε : Type} {x : Except ε Circuit}
    (hx : ∀ e, x = .ok e → ReflTransGen (Change written) c e) :
    ReflTransGen (Change written) c (Attempt.ofStep c x).state := by
  cases x with
  | ok e => exact hx e rfl
  | error e => exact .refl

theorem circuit?_ofAttempt {ε : Type} (toError : ε → IntegerError) (run : Attempt Circuit ε) :
    (Outcome.ofAttempt toError run).circuit? = some run.state := by
  rw [Outcome.ofAttempt]
  split <;> rfl

/-- Every operation, also one that fails, is a sequence of changes that write what it may write. -/
theorem changes_run (op : Operation) (h : (op.run c).circuit? = some d) :
    ReflTransGen (Change op.Writes) c d := by
  cases op with
  | build step => exact changes_ofBuild step.assembled_run.grows (by simp [Operation.Writes, Operation.Assigns]) h
  | constantWord width value =>
    rw [Operation.run, Word.constant] at h
    cases hb : TwosComplement.encode value width with
    | error e => simp only [hb, Except.map] at h; cases h; exact .refl
    | ok bits =>
      simp only [hb, Except.map] at h
      exact changes_ofBuild (Build.assembled_map _ (Word.assembled_ofConstants bits)).grows
        (by simp [Operation.Writes, Operation.Assigns]) h
  | addOutput w =>
    rw [Operation.run, circuit?_ofAttempt, makeOutput_eq] at h
    cases h
    exact changes_ofStep fun _ => changes_addOutput
  | markOutput x =>
    rw [Operation.run, circuit?_ofAttempt, Word.markOutput_eq] at h
    cases h
    exact runSteps_reaches (fun _ _ _ _ => changes_addOutput) c
  | assign w value =>
    rw [Operation.run, circuit?_ofAttempt] at h
    cases h
    exact changes_ofStep fun _ => changes_assign (.inl rfl)
  | assignWord x value =>
    rw [Operation.run, circuit?_ofAttempt, Word.assign] at h
    cases h
    split
    · exact runSteps_reaches (fun _ hbit _ _ =>
        changes_assignBit (.inl (List.of_mem_zip hbit).1)) c
    · exact .refl
  | loadValues text =>
    rw [Operation.run, circuit?_ofAttempt] at h
    cases h
    exact changes_load (fun _ => .inl) c
  | execute =>
    rw [Operation.run, circuit?_ofAttempt] at h
    cases h
    exact changes_execute (fun _ => .inr rfl) c

/-! ### What holds of every circuit -/

variable {P : Circuit → Prop}

/-- What changes keep, sequences of changes keep. -/
theorem Change.preserves (hP : ∀ c d, Change written c d → P c → P d)
    (h : ReflTransGen (Change written) c d) (hc : P c) : P d := by
  induction h with
  | refl => exact hc
  | tail _ step ih => exact hP _ _ step ih

/-- A property that the empty circuit and those of netlists have, and that changes keep, is one of all
circuits. -/
theorem Reachable.invariant (hempty : P {})
    (hnetlist : ∀ ss c, Netlist.Consistent ss → Netlist.Describes ss c → P c)
    (hchange : ∀ written c d, Change written c d → P c → P d) (h : Reachable c) : P c := by
  induction h with
  | empty => exact hempty
  | parsed hp =>
    obtain ⟨ss, -, hs, hd⟩ := Netlist.parse_ok hp
    exact hnetlist ss _ hs hd
  | operated op _ hop ih => exact Change.preserves (hchange _) (changes_run op hop) ih

theorem Reachable.load (h : Reachable c) (text : String) :
    Reachable (Values.load c text).state :=
  .operated (.loadValues text) h (circuit?_ofAttempt ..)

end Circuit

end GateNet
