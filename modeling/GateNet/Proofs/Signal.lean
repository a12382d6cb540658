import GateNet.Proofs.Failure
import GateNet.Proofs.Supply

/-!
Wires that carry bits. A valuation respects a circuit if gates, pairs of complements and constants have
the values they ask for, as they do after every execution that succeeds. Fix a valuation: a wire carries
a bit in a circuit if it has that bit whenever the valuation respects the circuit, and building leaves
this so. What a gadget does is then told step by step, from the bits that its operands carry to the
bits that its results carry, together with the fact that it is at no fault. The gates that are added
read wires that get a value as soon as the inputs do that the valuation knows.
-/

namespace GateNet.Circuit

open Relation

variable {c d : Circuit} {v : Nat → Option Bool} {w n : Nat} {bit x y : Bool}

/-- A circuit that can be built on, with its complements in order. -/
structure Buildable (c : Circuit) : Prop extends Complemented c where
  origin_ne : c.origin ≠ .netlist

theorem Steady.buildable (h : Steady c) : Buildable c := ⟨h.toComplemented, h.origin_ne⟩

theorem Buildable.growth (h : Buildable c) (step : Growth c d) : Buildable d where
  toComplemented := h.toComplemented.growth step
  origin_ne := by
    obtain ⟨-, ho, -⟩ := step.issues
    simp [ho]

/-! ### What remains -/

/-- Everything in the first circuit is still there in the second one, complements and constants too;
other values may differ. -/
structure Remains (c d : Circuit) : Prop extends Keeps c d where
  complement? : ∀ w n, c.complement? w = some n → d.complement? w = some n
  constant : ∀ w bit, Constant c w bit → Constant d w bit

namespace Remains

theorem refl (c : Circuit) : Remains c c where
  toKeeps := .refl c
  complement? _ _ := id
  constant _ _ := id

theorem trans {e : Circuit} (h : Remains c d) (h' : Remains d e) : Remains c e where
  toKeeps := h.toKeeps.trans h'.toKeeps
  complement? w n hm := h'.complement? w n (h.complement? w n hm)
  constant w bit hw := h'.constant w bit (h.constant w bit hw)

end Remains

theorem Growth.remains (h : Complemented c) (step : Growth c d) : Remains c d where
  toKeeps := step.keeps
  complement? _ _ := h.growth_complement? step
  constant w _ hw := {
    not_input := (step.keeps.isInput w hw.registered).trans hw.not_input
    not_driven := (step.keeps.isGateOutput hw.registered).trans hw.not_driven
    not_complement := fun p hp he =>
      hw.not_complement p ((step.keeps.recorded p (he ▸ hw.registered)).mp hp) he
    holds := (step.raw? hw.registered).trans hw.holds }

theorem Proceeds.remains (h : Complemented c) (step : Proceeds c d) : Remains c d where
  toKeeps := step.operated.keeps
  complement? := (h.operated step.operated).2
  constant _ _ hw := hw.proceeds h.toWellFormed step

/-! ### Operands -/

/-- A wire that gadgets can take: an input, the complement of one, a gate output or a constant. -/
def Usable (c : Circuit) (w : Nat) : Prop := Invertible c w ∨ ∃ bit, Constant c w bit

/-- A usable wire that gets a value once the inputs do that the valuation knows. -/
inductive Operand (c : Circuit) (v : Nat → Option Bool) (w : Nat) : Prop
  | input : c.isInput w = true → v w ≠ none → Operand c v w
  | complement {p : Nat × Nat} : p ∈ c.inputComplements → p.2 = w → v p.1 ≠ none → Operand c v w
  | driven : c.isGateOutput w = true → Operand c v w
  | constant {bit : Bool} : Constant c w bit → Operand c v w

/-- Every gate reads operands and wires that have a value already. -/
def Lively (c : Circuit) (v : Nat → Option Bool) : Prop :=
  ∀ w, IsRead c w → c.wires.raw? w ≠ none ∨ Operand c v w

/-- Every gate has a function that a netlist can name. -/
def Named (c : Circuit) : Prop := ∀ w g, c.gate? w = some g → g.function.code.val ≠ 0

/-- Every wire is supplied. -/
def Whole (c : Circuit) : Prop := ∀ w, ¬ Orphan c w

theorem not_orphan_of_driven (h : c.isGateOutput w = true) : ¬ Orphan c w := fun ho =>
  Bool.false_ne_true (ho.not_driven.symm.trans h)

theorem WellFormed.registered_of_driven (h : WellFormed c) (hw : c.isGateOutput w = true) :
    c.wires.contains w = true := by
  rw [isGateOutput_eq, Option.isSome_iff_exists] at hw
  obtain ⟨g, hg⟩ := hw
  exact (h.gate_registered w g hg).1

theorem Operand.usable (hw : Operand c v w) : Usable c w := by
  cases hw with
  | input hi => exact .inl (.inl hi)
  | complement hp he => exact .inl (.inr (.inr ⟨_, hp, he⟩))
  | driven hg => exact .inl (.inr (.inl hg))
  | constant hc => exact .inr ⟨_, hc⟩

/-- A usable wire that the valuation knows is an operand, if the valuation knows the input of which it may
be the complement. -/
theorem Usable.operand (hw : Usable c w) (hv : v w ≠ none)
    (hpair : ∀ p ∈ c.inputComplements, p.2 = w → v p.1 ≠ none) : Operand c v w := by
  rcases hw with (hi | hg | ⟨p, hp, he⟩) | ⟨bit, hc⟩
  · exact .input hi hv
  · exact .driven hg
  · exact .complement hp he (hpair p hp he)
  · exact .constant hc

theorem Invertible.registered (h : WellFormed c) (hw : Invertible c w) :
    c.wires.contains w = true := by
  rcases hw with hi | hg | ⟨p, hp, rfl⟩
  · exact h.input_registered w hi
  · exact h.registered_of_driven hg
  · exact h.complement_registered p hp

theorem Usable.registered (hw : Usable c w) (h : WellFormed c) : c.wires.contains w = true := by
  rcases hw with hw | ⟨bit, hw⟩
  · exact hw.registered h
  · exact hw.registered

theorem Operand.registered (h : WellFormed c) (hw : Operand c v w) : c.wires.contains w = true :=
  hw.usable.registered h

theorem Remains.operand (h : WellFormed c) (hd : Remains c d) (hw : Operand c v w) :
    Operand d v w := by
  have hreg := hw.registered h
  cases hw with
  | input hi hv => exact .input ((hd.isInput w hreg).trans hi) hv
  | @complement p hp he hv =>
    exact .complement ((hd.recorded p (h.complement_registered p hp)).mpr hp) he hv
  | driven hg => exact .driven ((hd.isGateOutput hreg).trans hg)
  | constant hc => exact .constant (hd.constant w _ hc)

/-- A wire that is an orphan was one as long as it was there. -/
theorem Growth.orphan (h : Complemented c) (step : Growth c d) (hreg : c.wires.contains w = true)
    (hw : Orphan d w) : Orphan c w where
  registered := hreg
  not_input := (step.keeps.isInput w hreg).symm.trans hw.not_input
  not_driven := (step.keeps.isGateOutput hreg).symm.trans hw.not_driven
  unknown := (step.raw? hreg).symm.trans hw.unknown
  unpaired := by
    refine Option.eq_none_iff_forall_ne_some.mpr fun v hv => ?_
    have hlater := h.growth_complement? step hv
    rw [hw.unpaired] at hlater
    cases hlater

/-- Where every gate reads such wires, an execution succeeds once the inputs have values that the
valuation knows. -/
theorem WellFormed.execute_succeeds (h : WellFormed d) (same : SameStructure c d)
    (hkept : ∀ w, c.wires.raw? w ≠ none → d.wires.raw? w ≠ none) (hl : Lively c v)
    (hv : ∀ w, c.isInput w = true → v w ≠ none → d.wires.raw? w ≠ none) :
    d.execute.failure = none := by
  refine h.execute_ok_iff.mpr fun w hw lacking => ?_
  rcases hl w (same.isRead_iff.mp hw) with hknown | hoperand
  · exact lacking.not_sourced (.inl (hkept w hknown))
  · cases hoperand with
    | input hi hx => exact lacking.not_sourced (.inl (hv w hi hx))
    | @complement p hp he hx =>
      have hp' : p ∈ d.inputComplements := same.inputComplements ▸ hp
      have hi : c.isInput p.1 = true := (same.isInput _).symm.trans (h.complement_of_input p hp')
      exact lacking.not_sourced (.inr ⟨p, hp', he, hv p.1 hi hx⟩)
    | driven hg =>
      have hd := lacking.not_driven
      rw [same.isGateOutput, hg] at hd
      cases hd
    | constant hc =>
      refine lacking.not_sourced (.inl (hkept w ?_))
      rw [hc.holds]
      exact Option.some_ne_none _

/-! ### Valuations -/

/-- The valuation gives gate outputs, complements and constants the values that the circuit asks for. -/
structure Respects (c : Circuit) (v : Nat → Option Bool) : Prop where
  gate : ∀ w g p, c.gate? w = some g → c.wires.polarity? w = some p →
    v w = (Option.map₂ g.eval (v g.a) (v g.b)).map p.resolve
  pair : ∀ w n, c.complement? w = some n → v n = (v w).map (!·)
  constant : ∀ w bit, Constant c w bit → v w = some bit

/-- What respects a circuit respects what is still there of an earlier one. -/
theorem Remains.respects (h : WellFormed c) (hd : Remains c d) (hv : Respects d v) :
    Respects c v where
  gate w g p hg hp := by
    have hreg := (h.gate_registered w g hg).1
    exact hv.gate w g p ((hd.gate? w hreg).trans hg) ((hd.polarity? w hreg).trans hp)
  pair w n hm := hv.pair w n (hd.complement? w n hm)
  constant w bit hw := hv.constant w bit (hd.constant w bit hw)

theorem Steady.growth (h : Steady c) (step : Growth c d) : Steady d where
  toComplemented := h.toComplemented.growth step
  origin_ne := (h.buildable.growth step).origin_ne
  quiet p hp hnone := by
    by_cases hold : p ∈ c.inputComplements
    · have hinput := h.input_registered _ (h.complement_of_input p hold)
      rw [step.raw? hinput] at hnone
      rw [step.raw? (h.complement_registered p hold)]
      exact h.quiet p hold hnone
    · rw [step.inStep h.toComplemented hp hold, hnone]
      rfl

theorem Steady.grown (h : Steady c) (hd : ReflTransGen Growth c d) : Steady d := by
  induction hd with
  | refl => exact h
  | tail _ step ih => exact ih.growth step

/-! ### Building step by step -/

/-- The second circuit was built from the first one, in keeping with what holds of it. -/
structure Advance (v : Nat → Option Bool) (c d : Circuit) : Prop where
  start : Buildable c
  built : Buildable d
  remains : Remains c d
  lively : Lively c v → Lively d v
  named : Named c → Named d
  whole : Whole c → Whole d

namespace Advance

theorem refl (h : Buildable c) : Advance v c c where
  start := h
  built := h
  remains := .refl c
  lively := id
  named := id
  whole := id

theorem trans {e : Circuit} (h : Advance v c d) (h' : Advance v d e) : Advance v c e where
  start := h.start
  built := h'.built
  remains := h.remains.trans h'.remains
  lively hc := h'.lively (h.lively hc)
  named hc := h'.named (h.named hc)
  whole hc := h'.whole (h.whole hc)

theorem operand (h : Advance v c d) (hw : Operand c v w) : Operand d v w :=
  h.remains.operand h.start.toWellFormed hw

theorem respects (h : Advance v c d) (hv : Respects d v) : Respects c v :=
  h.remains.respects h.start.toWellFormed hv

/-- The gates after an act of building are those of before, and at most one more. -/
theorem of_growth (h : Buildable c) (step : Growth c d) (hnext : ¬ Orphan d c.nextWire)
    (hgates : ∀ u k, d.gate? u = some k → c.gate? u ≠ some k →
      (∀ w, w = k.a ∨ w = k.b → IsRead c w ∨ Operand c v w) ∧
        (Named c → k.function.code.val ≠ 0)) :
    Advance v c d where
  start := h
  built := h.growth step
  remains := step.remains h.toComplemented
  lively hl w hw := by
    obtain ⟨u, k, hk, hw⟩ := hw
    have hread : IsRead c w ∨ Operand c v w := by
      by_cases hold : c.gate? u = some k
      · exact .inl ⟨u, k, hold, hw⟩
      · exact (hgates u k hk hold).1 w hw
    have hlive : c.wires.raw? w ≠ none ∨ Operand c v w := by
      rcases hread with hread | hoperand
      · exact hl w hread
      · exact .inr hoperand
    refine hlive.imp (fun hknown => ?_) ((step.remains h.toComplemented).operand h.toWellFormed)
    rwa [step.raw?]
    by_contra hreg
    exact hknown (WireStore.raw?_of_not_contains (by simpa using hreg))
  named hn u k hk := by
    by_cases hold : c.gate? u = some k
    · exact hn u k hold
    · exact (hgates u k hk hold).2 hn
  whole hc w hw := by
    obtain ⟨-, -, -, -, cell, hwires⟩ := step.issues
    have hreg := hw.registered
    rw [hwires, WireStore.contains_put] at hreg
    rcases hreg with rfl | hreg
    · exact hnext hw
    · exact hc w (step.orphan h.toComplemented hreg hw)

end Advance

variable {α β γ : Type}

/-- The step succeeds, and what it returns and leads to is as stated. -/
def Makes (v : Nat → Option Bool) (c : Circuit) (m : Build α) (post : α → Circuit → Prop) : Prop :=
  ∃ a d, m c = .ok (a, d) ∧ Advance v c d ∧ post a d

namespace Makes

theorem pure (h : Buildable c) {post : α → Circuit → Prop} {a : α} (ha : post a c) :
    Makes v c (Pure.pure a) post :=
  ⟨a, c, rfl, .refl h, ha⟩

theorem bind {m : Build α} {f : α → Build β} {P : α → Circuit → Prop} {Q : β → Circuit → Prop}
    (hm : Makes v c m P) (hf : ∀ a d, Advance v c d → P a d → Makes v d (f a) Q) :
    Makes v c (m >>= f) Q := by
  obtain ⟨a, d, hok, adv, ha⟩ := hm
  obtain ⟨b, e, hok', adv', hb⟩ := hf a d adv ha
  exact ⟨b, e, Build.bind_ok_iff.mpr ⟨a, d, hok, hok'⟩, adv.trans adv', hb⟩

theorem imp {m : Build α} {P Q : α → Circuit → Prop} (hm : Makes v c m P)
    (h : ∀ a d, Advance v c d → P a d → Q a d) : Makes v c m Q := by
  obtain ⟨a, d, hok, adv, ha⟩ := hm
  exact ⟨a, d, hok, adv, h a d adv ha⟩

/-- A step taken for every element of a list, each in relation to an element of another list. What is
known before stays true, and what is known of the results does. -/
theorem mapM {f : β → Build α} {P : Circuit → β → γ → Prop} {R : Circuit → α → γ → Prop}
    {bs : List β} {xs : List γ} (h : Buildable c)
    (hP : ∀ {d e b x}, Advance v d e → P d b x → P e b x)
    (hR : ∀ {d e a x}, Advance v d e → R d a x → R e a x)
    (hf : ∀ {d b x}, Buildable d → P d b x → Makes v d (f b) fun a e => R e a x)
    (hbs : List.Forall₂ (P c) bs xs) :
    Makes v c (bs.mapM f) fun as d => List.Forall₂ (R d) as xs := by
  induction bs generalizing c xs with
  | nil =>
    cases hbs
    rw [List.mapM_nil]
    exact .pure h .nil
  | cons b rest ih =>
    cases hbs with
    | cons hb hrest =>
      rw [List.mapM_cons]
      refine (hf h hb).bind fun a d adv ha => ?_
      refine (ih adv.built (hrest.imp fun _ _ => hP adv)).bind fun as e adv' has => ?_
      exact .pure adv'.built (.cons (hR adv' ha) has)

end Makes

/-- What a step is known to make is what it returned. -/
theorem Makes.of_ok {m : Build α} {post : α → Circuit → Prop} (hm : Makes v c m post) {a : α}
    (hok : m c = .ok (a, d)) : Advance v c d ∧ post a d := by
  obtain ⟨a', d', hok', adv, ha⟩ := hm
  cases hok.symm.trans hok'
  exact ⟨adv, ha⟩

theorem Makes.succeeds {m : Build α} {post : α → Circuit → Prop} (hm : Makes v c m post) :
    ∃ a d, m c = .ok (a, d) := by
  obtain ⟨a, d, hok, -⟩ := hm
  exact ⟨a, d, hok⟩

/-- The wire is an operand, and has the bit if the valuation respects the circuit. -/
structure Carries (c : Circuit) (v : Nat → Option Bool) (w : Nat) (x : Bool) : Prop where
  operand : Operand c v w
  value : Respects c v → v w = some x

theorem Carries.after (h : Carries c v w x) (adv : Advance v c d) : Carries d v w x where
  operand := adv.operand h.operand
  value hv := h.value (adv.respects hv)

/-! ### The acts of building -/

/-- A gate carries its function of the bits that it reads. -/
theorem makes_gate (h : Buildable c) {f : GateFunction} (hf : f.code.val ≠ 0) {a b : Nat}
    (ha : Carries c v a x) (hb : Carries c v b y) :
    Makes v c (Build.addGate f a b) fun w d => Carries d v w (f.eval x y) := by
  have can := h.canIssue h.origin_ne
  have idle := h.toWellFormed.idle can.unused
  have hra := ha.operand.registered h.toWellFormed
  have hrb := hb.operand.registered h.toWellFormed
  have step : Growth c (c.withGate f a b) := .gate f can hra hrb idle.not_driven
  have hgate : ∀ w, (c.withGate f a b).gate? w =
      if c.nextWire = w then some ⟨f, a, b, c.nextWire⟩ else c.gate? w := fun w => gate?_file ..
  have hnew := (hgate c.nextWire).trans (if_pos rfl)
  have hdriven : (c.withGate f a b).isGateOutput c.nextWire = true := by
    rw [isGateOutput_eq, hnew]
    rfl
  have adv : Advance v c (c.withGate f a b) := by
    refine .of_growth h step (not_orphan_of_driven hdriven) fun u k hk hold => ?_
    rw [hgate] at hk
    split at hk
    · cases hk
      refine ⟨?_, fun _ => hf⟩
      rintro w (rfl | rfl)
      · exact .inr ha.operand
      · exact .inr hb.operand
    · exact absurd hk hold
  refine ⟨_, _, Build.addGate_ok_iff.mpr ⟨can, hra, hrb, idle.not_driven, rfl, rfl⟩, adv, ?_⟩
  refine ⟨.driven hdriven, fun hv => ?_⟩
  have hpol : (c.withGate f a b).wires.polarity? c.nextWire = some ⟨false, false⟩ :=
    (WireStore.polarity?_put ..).trans (if_pos rfl)
  rw [hv.gate _ _ _ hnew hpol, ha.value (adv.respects hv), hb.value (adv.respects hv)]
  simp [Gate.eval, Polarity.resolve]

theorem Advance.constant (h : Buildable c) (can : c.CanIssue) (bit : Bool) :
    Advance v c (c.issue false (some bit)) := by
  refine .of_growth h (.wire _ can) (fun ho => ?_) fun _ _ hk hold => absurd hk hold
  have hknown := (Constant.issue h.toWellFormed can bit).holds
  rw [ho.unknown] at hknown
  cases hknown

/-- A constant carries its bit. -/
theorem makes_constant (v : Nat → Option Bool) (h : Buildable c) (bit : Bool) :
    Makes v c (Build.constant bit) fun w d => Carries d v w bit := by
  have can := h.canIssue h.origin_ne
  have hconst := Constant.issue h.toWellFormed can bit
  have adv := Advance.constant (v := v) h can bit
  exact ⟨_, _, Build.freshWire_ok_iff.mpr ⟨can, rfl, rfl⟩, adv, .constant hconst,
    fun hv => hv.constant _ _ hconst⟩

/-- The complement of an operand is an operand. -/
theorem Operand.pair (h : Complemented c) (hm : c.complement? w = some n) (hw : Operand c v w) :
    Operand c v n := by
  cases h.paired w n hm with
  | input f =>
    refine .complement f.recorded rfl ?_
    cases hw with
    | input hi hx => exact hx
    | complement hp he hx =>
      have hnot := (h.complement_undriven _ hp).1
      rw [he, f.input] at hnot
      cases hnot
    | driven hg =>
      rw [h.input_undriven w f.input] at hg
      cases hg
    | constant hc => exact absurd (hc.not_input.symm.trans f.input) Bool.false_ne_true
  | complement f =>
    refine .input f.input ?_
    cases hw with
    | input hi hx => exact absurd (f.not_input.symm.trans hi) Bool.false_ne_true
    | @complement p hp he hx =>
      -- a wire is the complement of one input
      have hp' := h.symm _ _ (h.remembered p hp)
      rw [he, hm] at hp'
      cases hp'
      exact hx
    | driven hg => exact absurd (f.not_driven.symm.trans hg) Bool.false_ne_true
    | constant hc => exact absurd rfl (hc.not_complement _ f.recorded)
  | gates hg hk =>
    refine .driven ?_
    rw [isGateOutput_eq, hk]
    rfl

/-- Inverting adds a gate only beside one of the same function over the same wires. -/
theorem advance_invert (h : Buildable c) (hok : Build.invert w c = .ok (n, d)) : Advance v c d := by
  rcases Build.invert_ok_iff.mp hok with ⟨-, rfl⟩ | ⟨memo, can, -, cell, hc, hcase⟩
  · exact .refl h
  rcases hcase with ⟨hi, rfl⟩ | ⟨hi, g, hg, free, rfl⟩ | ⟨-, -, bit, -, rfl⟩
  · have hpaired : (c.withInputComplement w cell).complement? c.nextWire = some w :=
      (complement?_pairUp ..).trans (if_pos rfl)
    refine .of_growth h (.inputComplement can memo hc hi) (fun ho => ?_) fun _ _ hk hold =>
      absurd hk hold
    rw [ho.unpaired] at hpaired
    cases hpaired
  · have hdriven : (c.withGateComplement w g cell).isGateOutput c.nextWire = true :=
      (isGateOutput_file ..).mpr (.inl rfl)
    refine .of_growth h (.gateComplement can memo hc hi hg free) (not_orphan_of_driven hdriven)
      fun u k hk hold => ?_
    have hfiled : (c.withGateComplement w g cell).gate? u =
        if c.nextWire = u then some (g.withOutput c.nextWire) else c.gate? u := gate?_file ..
    rw [hfiled] at hk
    split at hk
    · cases hk
      exact ⟨fun _ hr => .inl ⟨w, g, hg, hr⟩, fun hn => hn w g hg⟩
    · exact absurd hk hold
  · exact .constant h can _

/-- The complement of a wire carries the opposite bit. -/
theorem makes_invert (h : Buildable c) (hw : Carries c v w x) :
    Makes v c (Build.invert w) fun n d => Carries d v n !x := by
  rcases hw.operand.usable with hi | ⟨bit, hconst⟩
  · obtain ⟨n, d, hok, -, hm⟩ := h.invert_ok h.origin_ne hi
    have adv := advance_invert (v := v) h hok
    have hw' := hw.after adv
    refine ⟨n, d, hok, adv, hw'.operand.pair adv.built.toComplemented hm, fun hv => ?_⟩
    rw [hv.pair w n hm, hw'.value hv]
    rfl
  · have hok := hconst.invert h.toComplemented h.origin_ne
    have adv := advance_invert (v := v) h hok
    have hnew := Constant.issue h.toWellFormed (h.canIssue h.origin_ne) !bit
    refine ⟨_, _, hok, adv, .constant hnew, fun hv => ?_⟩
    have hbit := (adv.respects hv).constant w bit hconst
    rw [hw.value (adv.respects hv)] at hbit
    cases hbit
    exact hv.constant _ _ hnew

end GateNet.Circuit
