import GateNet.Proofs.Command.Operands
import GateNet.Proofs.Command.Program

/-!
What a compiled operation computes. Its gates are those of one step of building on a circuit of operands,
so they are the same for all values of the operands; and under every valuation that respects them, the
wires of the result carry what the operation delivers on the signed readings of its operands. An
execution is such a valuation, and it succeeds.
-/

namespace GateNet.Command

open Relation
open Circuit hiding value
open TwosComplement

/-! ### What operations deliver -/

/-- The result of an operation: a truth value or a number. -/
inductive Delivered where
  | truth (t : Bool)
  | number (n : Int)
deriving DecidableEq

/-- The result of an operation on two signed numbers. A division by zero has none. -/
def Arithmetic.deliver? (a b : Int) : Arithmetic → Option Delivered
  | .add => some (.number (a + b))
  | .sub => some (.number (a - b))
  | .neg => some (.number (-a))
  | .div => if b = 0 then none else some (.number (a.tdiv b))
  | .lt => some (.truth (decide (a < b)))
  | .le => some (.truth (decide (a ≤ b)))
  | .eq => some (.truth (decide (a = b)))

/-- The number of bits of a result. -/
def Arithmetic.bits (operation : Arithmetic) (width : Nat) : Nat :=
  if operation.isComparison then 1 else width

/-- The bits of a result, least significant first: a truth value is one bit, and a number is taken
modulo two to the width. -/
def Delivered.pattern (width : Nat) : Delivered → List Bool
  | .truth t => [t]
  | .number n => bitsOf width (residue n width)

/-- A request that can be carried out: there is a bit at least, and the operands are there and fit. -/
structure SynthRequest.Valid (r : SynthRequest) : Prop where
  width : 1 ≤ r.width
  a : Fits r.a r.width
  b : r.operation ≠ .neg → ∃ v, r.b = some v ∧ Fits v r.width

/-! ### The gates of an operation -/

variable {c d : Circuit} {v : Nat → Option Bool} {x y : Word} {k m n : Nat}

/-- The wires of the word carry the bits of what the operation delivers on the two numbers, or some bits
if it delivers nothing. -/
def Carried (operation : Arithmetic) (width : Nat) (a b : Int) (v : Nat → Option Bool) (r : Word)
    (d : Circuit) : Prop :=
  ∃ bits, Word.Spells d v r.bits bits ∧ bits.length = operation.bits width ∧
    ∀ result, operation.deliver? a b = some result → bits = result.pattern width

variable {operation : Arithmetic} {width : Nat} {a b : Int} {r : Word}

theorem carried_number (ho : operation.isComparison = false) {q : Nat} (hw : r.width = width)
    (h : Word.Holds d v r q)
    (hq : ∀ result, operation.deliver? a b = some result →
      ∃ z, result = .number z ∧ q = residue z width) :
    Carried operation width a b v r d := by
  obtain ⟨bits, hbits, hvalue⟩ := h
  have hlen : bits.length = width := hbits.length_eq.symm.trans hw
  refine ⟨bits, hbits, ?_, fun result hresult => ?_⟩
  · rw [hlen, Arithmetic.bits, ho]
    rfl
  · obtain ⟨z, rfl, hz⟩ := hq result hresult
    rw [Delivered.pattern, ← hz, ← hvalue, ← hlen, bitsOf_value]

theorem carried_truth (ho : operation.isComparison = true) {w : Nat} {t : Bool} (h : Carries d v w t)
    (ht : operation.deliver? a b = some (.truth t)) : Carried operation width a b v ⟨[w]⟩ d := by
  refine ⟨[t], .cons h .nil, ?_, fun result hresult => ?_⟩
  · rw [Arithmetic.bits, ho]
    rfl
  · rw [ht] at hresult
    cases hresult
    rfl

/-- The gates of an operation carry what it delivers on the signed readings of its operands. -/
theorem makes_binary (operation : Arithmetic) (h : Buildable c) (hx : Word.Holds c v x m)
    (hy : Word.Holds c v y n) (hwidth : x.width = y.width) (hk : x.width = k + 1) :
    Makes v c (binary operation x y)
      (Carried operation (k + 1) (signed m (k + 1)) (signed n (k + 1)) v) := by
  have hm : m < modulus (k + 1) := hk ▸ hx.lt
  have hn : n < modulus (k + 1) := (hwidth.symm.trans hk) ▸ hy.lt
  cases operation with
  | add =>
    refine (Word.makes_add h hx hy hwidth).imp fun r d _ hr => ?_
    refine carried_number rfl (hr.1.trans hk) hr.2 fun result hresult => ?_
    cases hresult
    exact ⟨_, rfl, by rw [hk, residue_add hm hn]⟩
  | sub =>
    refine (Word.makes_sub h hx hy hwidth).imp fun r d _ hr => ?_
    refine carried_number rfl (hr.1.trans hk) hr.2 fun result hresult => ?_
    cases hresult
    exact ⟨_, rfl, by rw [hk, residue_sub hm hn]⟩
  | neg =>
    refine (Word.makes_negate h hx).imp fun r d _ hr => ?_
    refine carried_number rfl (hr.1.trans hk) hr.2 fun result hresult => ?_
    cases hresult
    exact ⟨_, rfl, by rw [hk, residue_neg hm]⟩
  | div =>
    refine (Word.makes_div h hx hy hwidth hk).imp fun r d _ hr => ?_
    obtain ⟨hr, q, hq, hvalue⟩ := hr
    refine carried_number rfl (hr.trans hk) hq fun result hresult => ?_
    obtain ⟨hb, rfl⟩ : signed n (k + 1) ≠ 0 ∧
        Delivered.number ((signed m (k + 1)).tdiv (signed n (k + 1))) = result := by
      simpa [Arithmetic.deliver?] using hresult
    refine ⟨_, rfl, hvalue ?_⟩
    rintro rfl
    exact hb (by simp [signed])
  | lt =>
    refine (Word.makes_less h hx hy hwidth hk).bind fun w d adv hw => ?_
    exact .pure adv.built (carried_truth rfl hw rfl)
  | le =>
    refine (Word.makes_lessOrEqual h hx hy hwidth hk).bind fun w d adv hw => ?_
    exact .pure adv.built (carried_truth rfl hw rfl)
  | eq =>
    refine (Word.makes_equal h hx hy hwidth).bind fun w d adv hw => ?_
    refine .pure adv.built (carried_truth rfl hw ?_)
    rw [Arithmetic.deliver?, decide_eq_decide.mpr (signed_injective hm hn)]

/-- The wires of a result are distinct. -/
theorem binary_nodup (h : binary operation x y c = .ok (r, d)) : r.bits.Nodup := by
  have ascending : ∀ {m : Build Word}, Build.Issues Word.bits m → m c = .ok (r, d) → r.bits.Nodup :=
    fun hm hok => (hm.ascending hok).imp Nat.ne_of_lt
  have single : ∀ {m : Build Nat}, (m >>= fun w => pure ⟨[w]⟩ : Build Word) c = .ok (r, d) →
      r.bits.Nodup := by
    intro m hok
    obtain ⟨w, e, -, hr⟩ := Build.bind_ok_iff.mp hok
    obtain ⟨rfl, -⟩ := Build.pure_ok_iff.mp hr
    exact List.nodup_singleton w
  cases operation with
  | add => exact ascending (Word.issues_add x y) h
  | sub => exact ascending (Word.issues_sub x y) h
  | neg => exact ascending (Word.issues_negate x) h
  | div => exact ascending (Word.issues_div x y) h
  | lt => exact single h
  | le => exact single h
  | eq => exact single h

/-! ### The step of building -/

/-- The step of building behind an operation. -/
def construction : Arithmetic → Word → Word → Construction
  | .add, a, b => .add a b
  | .sub, a, b => .sub a b
  | .neg, a, _ => .negate a
  | .div, a, b => .div a b
  | .lt, a, b => .less a b
  | .le, a, b => .lessOrEqual a b
  | .eq, a, b => .equal a b

/-- The wires that a step of building returned. -/
def wordOf : Reply → Word
  | .ok (.word x) => x
  | .ok (.wire w) => ⟨[w]⟩
  | _ => ⟨[]⟩

theorem run_construction (h : binary operation x y c = .ok (r, d)) :
    ∃ answer, (construction operation x y).run c = .ok (answer, d) ∧ wordOf (.ok answer) = r := by
  have single : ∀ {m : Build Nat}, (m >>= fun w => pure ⟨[w]⟩ : Build Word) c = .ok (r, d) →
      ∃ answer, (Answer.wire <$> m) c = .ok (answer, d) ∧ wordOf (.ok answer) = r := by
    intro m hok
    obtain ⟨w, e, hm, hr⟩ := Build.bind_ok_iff.mp hok
    obtain ⟨rfl, rfl⟩ := Build.pure_ok_iff.mp hr
    exact ⟨.wire w, Build.map_ok_iff.mpr ⟨w, hm, rfl⟩, rfl⟩
  have word : ∀ {m : Build Word}, m c = .ok (r, d) →
      ∃ answer, (Answer.word <$> m) c = .ok (answer, d) ∧ wordOf (.ok answer) = r :=
    fun hok => ⟨.word r, Build.map_ok_iff.mpr ⟨r, hok, rfl⟩, rfl⟩
  cases operation with
  | add => exact word h
  | sub => exact word h
  | neg => exact word h
  | div => exact word h
  | lt => exact single h
  | le => exact single h
  | eq => exact single h

/-! ### The compiled circuit -/

/-- The circuit can be executed, and its outputs are yet to be declared; the wires of the result then
have the bits. -/
structure Compiled (c : Circuit) (result : Word) (bits : List Bool) : Prop extends Steady c where
  outputs : c.outputs = []
  distinct : result.bits.Nodup
  named : Named c
  whole : Whole c
  executes : c.execute.failure = none
  shows : List.Forall₂
    (fun w bit => c.wires.contains w = true ∧ c.execute.state.wires.seen? w = some bit) result.bits bits

/-- Building leaves inputs, their values and the outputs as they are. -/
theorem grown_inputs (h : Sound c) (hd : ReflTransGen Growth c d) :
    d.outputs = c.outputs ∧ ∀ w, c.isInput w = true →
      d.isInput w = true ∧ d.wires.raw? w = c.wires.raw? w := by
  induction hd with
  | refl => exact ⟨rfl, fun w hw => ⟨hw, rfl⟩⟩
  | @tail e f hd step ih =>
    obtain ⟨houtputs, hkept⟩ := ih
    obtain ⟨-, -, -, hsame, -⟩ := step.issues
    refine ⟨hsame.trans houtputs, fun w hw => ?_⟩
    obtain ⟨hi, hraw⟩ := hkept w hw
    have hreg := (h.grown hd).input_registered w hi
    exact ⟨(step.keeps.isInput w hreg).trans hi, (step.raw? hreg).trans hraw⟩

theorem assembled_binary (operation : Arithmetic) (x y : Word) :
    Build.Assembled (binary operation x y) := by
  cases operation with
  | add => exact Word.assembled_add x y
  | sub => exact Word.assembled_sub x y
  | neg => exact Word.assembled_negate x
  | div => exact Word.assembled_div x y
  | lt => exact .bind (Word.assembled_less x y) fun _ => .pure _
  | le => exact .bind (Word.assembled_lessOrEqual x y) fun _ => .pure _
  | eq => exact .bind (Word.assembled_equal x y) fun _ => .pure _

/-- The gates of an operation on given operands are built, and they can be executed. -/
theorem compiled_of_ready (h : Ready c) (operation : Arithmetic) (hx : Given c x m)
    (hy : Given c y n) (hwidth : x.width = y.width) (hk : x.width = k + 1) :
    ∃ r d bits, binary operation x y c = .ok (r, d) ∧ Compiled d r bits ∧
      bits.length = operation.bits (k + 1) ∧
      ∀ result, operation.deliver? (signed m (k + 1)) (signed n (k + 1)) = some result →
        bits = result.pattern (k + 1) := by
  have hmakes : ∀ v, Takes v c → Makes v c (binary operation x y)
      (Carried operation (k + 1) (signed m (k + 1)) (signed n (k + 1)) v) := fun v hv =>
    makes_binary operation h.toSteady.buildable (hx.holds hv) (hy.holds hv) hwidth hk
  obtain ⟨r, d, hok, adv, -⟩ := hmakes c.wires.raw? fun w bit _ hraw => hraw
  have hundriven : ∀ w g, c.gate? w ≠ some g := fun w g hg => by
    rw [h.undriven w] at hg
    cases hg
  have hgrown := (assembled_binary operation x y).grows.growth hok
  have hsteady := h.toSteady.grown hgrown
  obtain ⟨houtputs, hkept⟩ := grown_inputs h.toSound hgrown
  -- the inputs of the operands are the only ones, and they hold their values
  have hlively : Lively d c.wires.raw? := by
    refine adv.lively ?_
    rintro w ⟨u, g, hg, -⟩
    exact absurd hg (hundriven u g)
  have hexecutes : d.execute.failure = none := by
    refine hsteady.execute_succeeds (.refl d) (fun _ => id) hlively fun w _ hx => ?_
    obtain ⟨bit, hbit⟩ := Option.ne_none_iff_exists'.mp hx
    obtain ⟨cell, hc, -⟩ := Option.bind_eq_some_iff.mp hbit
    rw [(hkept w (h.given w (WireStore.contains_iff.mpr ⟨cell, hc⟩)).1).2]
    exact hx
  -- the execution is a valuation that takes the inputs as they are
  have htakes : Takes d.execute.state.wires.seen? c := by
    intro w bit hi hraw
    obtain ⟨hi', hraw'⟩ := hkept w hi
    have hexecuted := hsteady.executed
    rw [hexecuted.seen?_eq hexecuted.origin_ne (hsteady.input_undriven w hi'),
      hsteady.raw?_execute_input hi', hraw', hraw]
  obtain ⟨-, bits, hbits, hlength, hresult⟩ := (hmakes _ htakes).of_ok hok
  have hrespects := hsteady.respects hexecutes
  refine ⟨r, d, bits, hok, ?_, hlength, hresult⟩
  exact {
    toSteady := hsteady
    outputs := houtputs.trans h.outputs
    distinct := binary_nodup hok
    named := adv.named fun w g hg => absurd hg (hundriven w g)
    whole := adv.whole fun w ho => by
      have hi := (h.given w ho.registered).1
      rw [ho.not_input] at hi
      cases hi
    executes := hexecutes
    shows := hbits.imp fun w bit hw =>
      ⟨hw.operand.registered hsteady.toWellFormed, hw.value hrespects⟩ }

/-! ### Requests -/

/-- The steps of synthesis behind an operation on operands of a width, each picked by the replies to
those before it. The values of the operands have no part in it. -/
def plan (operation : Arithmetic) (width : Nat) : List Reply → Operation
  | [] => .build (.issueInputs width)
  | [a] =>
    if operation = .neg then .build (construction .neg (wordOf a) (wordOf a))
    else .build (.issueInputs width)
  | [a, b] =>
    if operation = .neg then .markOutput (wordOf b)
    else .build (construction operation (wordOf a) (wordOf b))
  | [_, _, result] => .markOutput (wordOf result)
  | _ => .markOutput ⟨[]⟩

/-- The number of steps before outputs are declared. -/
def stepsOf (operation : Arithmetic) : Nat := if operation = .neg then 2 else 3

variable {σ : Type} {out : String} {s : σ} {program : List Reply → Operation}
  {replies : List Reply}

/-- A step of building that a program picks. -/
theorem runs_build (h : Runs program replies c) {step : Construction} {answer : Answer}
    (hp : program replies = .build step) (hok : step.run c = .ok (answer, d)) :
    Runs program (replies ++ [.ok answer]) d := by
  refine .synthesis h ?_ ?_
  · rw [hp]
    trivial
  · rw [hp, Operation.run]
    exact Outcome.reply?_ofBuild.mpr ⟨answer, hok, rfl⟩

/-- An operand that fits is compiled to inputs that hold its value. -/
theorem ends_operand (h : Ready c) {width : Nat} {v : Int} (hw : 1 ≤ width) (hv : Fits v width) :
    ∃ x d e, (∀ {σ : Type} (context out : String) (s : σ),
        Ends (operand context width v c) out s (.ok (x, e)) out s) ∧
      (Construction.issueInputs width).run c = .ok (.word x, d) ∧ Supply d e ∧ Ready e ∧
      x.width = width ∧ Given e x (residue v width) ∧ ∀ y n, Given c y n → Given e y n := by
  obtain ⟨x, d, e, hd, hassign, hsupply, hready, hwidth, hgiven, hkept⟩ := h.operand hw hv
  refine ⟨x, d, e, fun context out s => ?_, Build.map_ok_iff.mpr ⟨x, hd, rfl⟩, hsupply, hready, hwidth,
    hgiven, hkept⟩
  have hresult : (x.assign d v).result = .ok e := by
    rw [hassign]
    rfl
  exact .bind (ends_ofBuild hd) (.bind (.within (ends_ofInteger hresult) context) (.pure _))

/-- What compiling a request leads to. -/
structure Compiles (r : SynthRequest) (result : Word) (c : Circuit) (bits : List Bool)
    (replies : List Reply) : Prop where
  ends : ∀ {σ : Type} (out : String) (s : σ), Ends (compile r) out s (.ok (result, c)) out s
  compiled : Compiled c result bits
  length : bits.length = r.operation.bits r.width
  delivers : ∀ delivered, r.operation.deliver? (Int.bmod r.a (modulus r.width))
    (Int.bmod (r.b.getD 0) (modulus r.width)) = some delivered → bits = delivered.pattern r.width
  runs : Runs (plan r.operation r.width) replies c
  steps : replies.length = stepsOf r.operation
  next : plan r.operation r.width replies = .markOutput result

/-- All operations but the negation take two operands. -/
theorem compile_binary {m : Type → Type} [Monad m] {r : SynthRequest} {v : Int}
    (ho : r.operation ≠ .neg) (hb : r.b = some v) :
    (compile r : Program m (Word × Circuit)) = (do
      let (a, c) ← operand "operand a" r.width r.a {}
      let (b, c) ← operand "operand b" r.width v c
      ofBuild (binary r.operation a b) c) := by
  rw [compile]
  congr 1
  funext p
  rw [hb]
  cases h : r.operation with
  | neg => exact absurd h ho
  | _ => rfl

theorem compile_neg {m : Type → Type} [Monad m] {r : SynthRequest} (ho : r.operation = .neg) :
    (compile r : Program m (Word × Circuit)) = (do
      let (a, c) ← operand "operand a" r.width r.a {}
      ofBuild a.negate c) := by
  rw [compile]
  congr 1
  funext p
  rw [ho]

/-- A valid request is compiled. -/
theorem compiles_of_valid {r : SynthRequest} (hr : r.Valid) :
    ∃ result c bits replies, Compiles r result c bits replies := by
  obtain ⟨k, hk⟩ : ∃ k, r.width = k + 1 := ⟨r.width - 1, (Nat.sub_add_cancel hr.width).symm⟩
  obtain ⟨x, d₁, c₁, hends, hx, hsupply, hready, hwidth, hgiven, -⟩ :=
    ends_operand Ready.empty hr.width hr.a
  have hstart : Runs (plan r.operation r.width) [.ok (.word x)] c₁ :=
    .supply (runs_build .start rfl hx) hsupply
  have hwidthx := hwidth.trans hk
  by_cases ho : r.operation = .neg
  · obtain ⟨result, c, bits, hok, hcompiled, hlength, hdelivers⟩ :=
      compiled_of_ready hready .neg hgiven hgiven rfl hwidthx
    obtain ⟨answer, hanswer, rfl⟩ := run_construction hok
    have hruns := runs_build hstart (if_pos ho) hanswer
    refine ⟨_, c, bits, _, ?_, hcompiled, ?_, fun delivered hd => ?_, hruns, ?_, if_pos ho⟩
    · intro σ out s
      rw [compile_neg ho]
      exact .bind (hends ..) (ends_ofBuild hok)
    · rw [ho, hk, hlength]
    · rw [← hk, signed_residue] at hdelivers
      rw [ho] at hd
      exact hdelivers delivered hd
    · simp [stepsOf, ho]
  · obtain ⟨v, hb, hv⟩ := hr.b ho
    obtain ⟨y, d₂, c₂, hends', hy, hsupply', hready', hwidth', hgiven', hkept⟩ :=
      ends_operand hready hr.width hv
    obtain ⟨result, c, bits, hok, hcompiled, hlength, hdelivers⟩ :=
      compiled_of_ready hready' r.operation (hkept x _ hgiven) hgiven' (hwidth.trans hwidth'.symm)
        hwidthx
    obtain ⟨answer, hanswer, rfl⟩ := run_construction hok
    have hsecond : Runs (plan r.operation r.width) [.ok (.word x), .ok (.word y)] c₂ :=
      .supply (runs_build hstart (if_neg ho) hy) hsupply'
    have hruns := runs_build hsecond (if_neg ho) hanswer
    refine ⟨_, c, bits, _, ?_, hcompiled, ?_, fun delivered hd => ?_, hruns, ?_, rfl⟩
    · intro σ out s
      rw [compile_binary ho hb]
      exact .bind (hends ..) (.bind (hends' ..) (ends_ofBuild hok))
    · rw [hk, hlength]
    · rw [← hk, signed_residue, signed_residue] at hdelivers
      rw [hb] at hd
      exact hdelivers delivered hd
    · simp [stepsOf, ho]

end GateNet.Command
