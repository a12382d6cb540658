import GateNet.Proofs.Assigned
import GateNet.Proofs.TwosComplement
import GateNet.Proofs.Wiring
import GateNet.Word.Divider

/-!
Words that hold numbers. A word holds a number in a circuit if its wires carry the bits of the number;
after a later execution that succeeds, the word is then read as that number. So a step on two words
computes what the numbers show that it makes of them, provided that every execution settles its result;
and if it consults the operands, they have a reading after every such execution.
-/

namespace GateNet

open Relation
open Circuit hiding value
open TwosComplement

namespace Word

variable {c d e : Circuit} {v : Nat → Option Bool}

/-- The wires carry the bits, one each. -/
def Spells (c : Circuit) (v : Nat → Option Bool) (ws : List Nat) (xs : List Bool) : Prop :=
  List.Forall₂ (Carries c v) ws xs

theorem Spells.after {ws : List Nat} {xs : List Bool} (h : Spells c v ws xs) (adv : Advance v c d) :
    Spells d v ws xs :=
  List.Forall₂.imp (fun _ _ hw => hw.after adv) h

/-- The two wires carry the two bits. -/
def CarriesPair (c : Circuit) (v : Nat → Option Bool) (p : Nat × Nat) (q : Bool × Bool) : Prop :=
  Carries c v p.1 q.1 ∧ Carries c v p.2 q.2

theorem CarriesPair.after {p : Nat × Nat} {q : Bool × Bool} (h : CarriesPair c v p q)
    (adv : Advance v c d) : CarriesPair d v p q :=
  ⟨h.1.after adv, h.2.after adv⟩

/-- Wires in pairs carry their bits in pairs. -/
theorem Spells.zip {as bs : List Nat} {xs ys : List Bool} (ha : Spells c v as xs)
    (hb : Spells c v bs ys) : List.Forall₂ (CarriesPair c v) (as.zip bs) (xs.zip ys) := by
  induction ha generalizing bs ys with
  | nil => exact .nil
  | cons hx _ ih =>
    cases hb with
    | nil => exact .nil
    | cons hy hb => exact .cons ⟨hx, hy⟩ (ih hb)

/-- The word carries the bits of the number. -/
def Holds (c : Circuit) (v : Nat → Option Bool) (x : Word) (n : Nat) : Prop :=
  ∃ xs, Spells c v x.bits xs ∧ value xs = n

namespace Holds

variable {w : Word} {n : Nat}

theorem after (h : Holds c v w n) (adv : Advance v c d) : Holds d v w n := by
  obtain ⟨xs, hxs, hn⟩ := h
  exact ⟨xs, hxs.after adv, hn⟩

theorem lt (h : Holds c v w n) : n < modulus w.width := by
  obtain ⟨xs, hxs, rfl⟩ := h
  rw [Word.width, hxs.length_eq]
  exact value_lt xs

end Holds

/-! ### Reading words -/

/-- Readers see the bits on the wires, one each. -/
def Shows (e : Circuit) (ws : List Nat) (xs : List Bool) : Prop :=
  List.Forall₂ (fun w x => e.wires.seen? w = some x) ws xs

theorem readBit_ok_iff {w : Nat} {x : Bool} : readBit e w = .ok x ↔ e.wires.seen? w = some x := by
  simp only [readBit, bind_ok_iff, value_ok_iff]
  constructor
  · rintro ⟨_, ⟨-, rfl⟩, h⟩
    cases hx : e.wires.seen? w with
    | none =>
      rw [hx] at h
      exact (throw_ok_iff.mp h).elim
    | some y =>
      rw [hx] at h
      rw [pure_ok_iff.mp h]
  · intro h
    exact ⟨some x, ⟨WireStore.contains_of_seen? h, h.symm⟩, rfl⟩

/-- A word is read as the number that its bits show. -/
theorem decodeUnsigned_ok_iff {a : Word} {n : Nat} :
    a.decodeUnsigned e = .ok n ↔ ∃ xs, Shows e a.bits xs ∧ value xs = n := by
  simp only [decodeUnsigned, bind_ok_iff, pure_ok_iff]
  constructor
  · rintro ⟨xs, hxs, hn⟩
    exact ⟨xs, (forall₂_of_mapM_ok hxs).imp fun _ _ => readBit_ok_iff.mp, hn⟩
  · rintro ⟨xs, hxs, hn⟩
    exact ⟨xs, mapM_ok_of_forall₂ (hxs.imp fun _ _ => readBit_ok_iff.mpr), hn⟩

theorem decodeSigned_ok_iff {a : Word} {z : Int} :
    a.decodeSigned e = .ok z ↔ ∃ n, a.decodeUnsigned e = .ok n ∧ signed n a.width = z := by
  simp only [decodeSigned, bind_ok_iff, pure_ok_iff]

theorem decodeUnsigned_lt {a : Word} {n : Nat} (h : a.decodeUnsigned e = .ok n) :
    n < modulus a.width := by
  obtain ⟨xs, hxs, rfl⟩ := decodeUnsigned_ok_iff.mp h
  rw [width, hxs.length_eq]
  exact value_lt xs

/-- A word that is seen on every wire has a reading. -/
theorem decodeUnsigned_ok {a : Word} (h : ∀ w ∈ a.bits, ∃ x, e.wires.seen? w = some x) :
    ∃ n, a.decodeUnsigned e = .ok n := by
  obtain ⟨xs, hxs⟩ := exists_list_of_forall h
  exact ⟨value xs, decodeUnsigned_ok_iff.mpr ⟨xs, hxs, rfl⟩⟩

/-- Operands that the valuation knows hold some number. -/
theorem Holds.of_operands {a : Word} (ha : ∀ w ∈ a.bits, Operand c v w)
    (hv : ∀ w ∈ a.bits, v w ≠ none) : ∃ n, Holds c v a n := by
  have hcarries : ∀ w ∈ a.bits, ∃ x, Carries c v w x := fun w hw => by
    obtain ⟨x, hx⟩ := Option.ne_none_iff_exists'.mp (hv w hw)
    exact ⟨x, ha w hw, fun _ => hx⟩
  obtain ⟨xs, hxs⟩ := exists_list_of_forall hcarries
  exact ⟨value xs, xs, hxs, rfl⟩

/-- Usable wires hold some number under a valuation that knows every wire. -/
theorem Holds.of_usable {a : Word} (ha : ∀ w ∈ a.bits, Usable c w) :
    ∃ n, Holds c (fun _ => some false) a n :=
  Holds.of_operands
    (fun w hw => (ha w hw).operand (Option.some_ne_none _) fun _ _ _ => Option.some_ne_none _)
    fun _ _ => Option.some_ne_none _

/-- An operand that is read as a number holds it under the valuation that the execution leaves. -/
theorem Holds.of_decode {a : Word} {n : Nat} (h : Buildable c) (he : Remains c e)
    (ha : ∀ w ∈ a.bits, Usable c w) (hn : a.decodeUnsigned e = .ok n) : Holds c e.mended a n := by
  obtain ⟨xs, hxs, hn⟩ := decodeUnsigned_ok_iff.mp hn
  refine ⟨xs, ?_, hn⟩
  refine ((List.forall₂_and_left _ _).mpr ⟨ha, hxs⟩).imp fun w x hw => ?_
  exact ⟨hw.1.operand_of_seen h he hw.2, fun _ => mended_of_seen hw.2⟩

/-- Settled wires show the bits that they carry. -/
theorem Spells.shows {ws : List Nat} {xs : List Bool} (h : Buildable c) (he : Later c e)
    (hs : ∀ w ∈ ws, Settled c w) (hws : Spells c e.mended ws xs) : Shows e ws xs := by
  refine ((List.forall₂_and_left _ _).mpr ⟨hs, hws⟩).imp fun w x hw => ?_
  exact (hw.1.seen h he).trans (hw.2.value (he.respects h))

/-! ### Steps on words -/

variable {α β : Type} {a b : Word} {m : Build α} {wires : α → List Nat}

/-- How a step on two words is wired: it settles its result and consults the words. -/
structure Gadget (a b : Word) (m : Build α) (wires : α → List Nat) : Prop where
  assembled : Build.Assembled m
  settles : Build.Settles [] m wires
  consults : ∀ w ∈ a.bits ++ b.bits, Build.Consults w m

/-- The step succeeds, and after every later execution that succeeds its result is as stated of the
readings of the two words. They do have readings then, provided that no complement had a value of which
the input had none. -/
def Computes (c : Circuit) (a b : Word) (m : Build α) (read : Word → Circuit → Except Cause β)
    (post : β → β → α → Circuit → Prop) : Prop :=
  ∃ r d, m c = .ok (r, d) ∧ ∀ e, Later d e →
    (Steady c → ∃ x y, read a e = .ok x ∧ read b e = .ok y) ∧
      ∀ x y, read a e = .ok x → read b e = .ok y → post x y r e

theorem Computes.imp {read : Word → Circuit → Except Cause β} {P Q : β → β → α → Circuit → Prop}
    (h : Computes c a b m read P) (hpost : ∀ x y r e, P x y r e → Q x y r e) :
    Computes c a b m read Q := by
  obtain ⟨r, d, hok, hlater⟩ := h
  refine ⟨r, d, hok, fun e he => ?_⟩
  obtain ⟨hread, hpost'⟩ := hlater e he
  exact ⟨hread, fun x y hx hy => hpost x y r e (hpost' x y hx hy)⟩

/-- Signed readings are those of the unsigned ones. -/
theorem Computes.signed {P : Nat → Nat → α → Circuit → Prop} {Q : Int → Int → α → Circuit → Prop}
    (h : Computes c a b m decodeUnsigned P)
    (hpost : ∀ k n r e, k < modulus a.width → n < modulus b.width → P k n r e →
      Q (signed k a.width) (signed n b.width) r e) :
    Computes c a b m decodeSigned Q := by
  obtain ⟨r, d, hok, hlater⟩ := h
  refine ⟨r, d, hok, fun e he => ?_⟩
  obtain ⟨hread, hpost'⟩ := hlater e he
  constructor
  · intro hc
    obtain ⟨k, n, hk, hn⟩ := hread hc
    exact ⟨_, _, decodeSigned_ok_iff.mpr ⟨k, hk, rfl⟩, decodeSigned_ok_iff.mpr ⟨n, hn, rfl⟩⟩
  · intro x y hx hy
    obtain ⟨k, hk, rfl⟩ := decodeSigned_ok_iff.mp hx
    obtain ⟨n, hn, rfl⟩ := decodeSigned_ok_iff.mp hy
    exact hpost k n r e (decodeUnsigned_lt hk) (decodeUnsigned_lt hn) (hpost' k n hk hn)

/-- What a gadget makes of the numbers that its operands hold, it computes. -/
theorem Gadget.computes (gadget : Gadget a b m wires) (h : Buildable c)
    (ha : ∀ w ∈ a.bits, Usable c w) (hb : ∀ w ∈ b.bits, Usable c w)
    {P : Nat → Nat → α → List Bool → Prop}
    (makes : ∀ v k n, Holds c v a k → Holds c v b n →
      Makes v c m fun r d => ∃ zs, Spells d v (wires r) zs ∧ P k n r zs) :
    Computes c a b m decodeUnsigned fun k n r e =>
      ∃ zs, Shows e (wires r) zs ∧ P k n r zs := by
  obtain ⟨r, d, hok⟩ : ∃ r d, m c = .ok (r, d) := by
    obtain ⟨k, hk⟩ := Holds.of_usable ha
    obtain ⟨n, hn⟩ := Holds.of_usable hb
    exact (makes _ k n hk hn).succeeds
  obtain ⟨hd, hremains⟩ := gadget.assembled.built h hok
  refine ⟨r, d, hok, fun e he => ⟨fun hc => ?_, fun k n hk hn => ?_⟩⟩
  · have hseen : ∀ w ∈ a.bits ++ b.bits, Usable c w → ∃ x, e.wires.seen? w = some x := by
      intro w hw husable
      have hconsulted := (gadget.consults w hw).consulted h husable hok
      obtain ⟨d', hd', hok', rfl⟩ := he
      have hsteady := (hc.grown (gadget.assembled.grows.growth hok)).later hd'
      exact hsteady.seen_of_consulted hok' (hconsulted.remains hd.toWellFormed (hd.proceeds hd').2)
    obtain ⟨k, hk⟩ := decodeUnsigned_ok (a := a) fun w hw =>
      hseen w (List.mem_append_left _ hw) (ha w hw)
    obtain ⟨n, hn⟩ := decodeUnsigned_ok (a := b) fun w hw =>
      hseen w (List.mem_append_right _ hw) (hb w hw)
    exact ⟨k, n, hk, hn⟩
  · have hremains' := hremains.trans (he.remains hd)
    obtain ⟨adv, zs, hzs, hpost⟩ :=
      (makes e.mended k n (.of_decode h hremains' ha hk) (.of_decode h hremains' hb hn)).of_ok hok
    have hsettled := gadget.settles.settled h (fun _ hw => nomatch hw) hok
    exact ⟨zs, hzs.shows hd he hsettled, hpost⟩

/-- A gadget whose result holds a number delivers it. -/
theorem Gadget.computes_word {m : Build Word} {f : Nat → Nat → Nat} (gadget : Gadget a b m bits)
    (h : Buildable c) (ha : ∀ w ∈ a.bits, Usable c w) (hb : ∀ w ∈ b.bits, Usable c w)
    (makes : ∀ v k n, Holds c v a k → Holds c v b n →
      Makes v c m fun r d => r.width = a.width ∧ Holds d v r (f k n)) :
    Computes c a b m decodeUnsigned fun k n r e =>
      r.width = a.width ∧ r.decodeUnsigned e = .ok (f k n) := by
  have hcomputes := gadget.computes h ha hb
    (P := fun k n r zs => r.width = a.width ∧ value zs = f k n) fun v k n hk hn => by
      refine (makes v k n hk hn).imp fun r d _ hr => ?_
      obtain ⟨hwidth, zs, hzs, hvalue⟩ := hr
      exact ⟨zs, hzs, hwidth, hvalue⟩
  refine hcomputes.imp fun k n r e hr => ?_
  obtain ⟨zs, hzs, hwidth, hvalue⟩ := hr
  exact ⟨hwidth, decodeUnsigned_ok_iff.mpr ⟨zs, hzs, hvalue⟩⟩

/-- A gadget whose result carries a bit delivers it. -/
theorem Gadget.computes_bit {m : Build Nat} {f : Nat → Nat → Bool}
    (gadget : Gadget a b m fun w => [w]) (h : Buildable c) (ha : ∀ w ∈ a.bits, Usable c w)
    (hb : ∀ w ∈ b.bits, Usable c w)
    (makes : ∀ v k n, Holds c v a k → Holds c v b n →
      Makes v c m fun w d => Carries d v w (f k n)) :
    Computes c a b m decodeUnsigned fun k n w e => e.value w = .ok (some (f k n)) := by
  have hcomputes := gadget.computes h ha hb
    (P := fun k n _ zs => zs = [f k n]) fun v k n hk hn =>
      (makes v k n hk hn).imp fun w d _ hw => ⟨_, .cons hw .nil, rfl⟩
  refine hcomputes.imp fun k n w e hw => ?_
  obtain ⟨zs, hzs, rfl⟩ := hw
  obtain ⟨hseen, -⟩ := List.forall₂_cons.mp hzs
  exact value_ok_iff.mpr ⟨WireStore.contains_of_seen? hseen, hseen.symm⟩

/-! ### Executing with a step -/

/-- Where the circuit without the step is executed to the end and leaves values on the wires of the two
words, and on the inputs of which some of them are complements, the circuit with the step is executed to
the end as well. -/
theorem executes_with {c₁ d₁ : Circuit} (ha : ∀ w ∈ a.bits, Usable c w) (hb : ∀ w ∈ b.bits, Usable c w)
    (hadv : ∀ v k n, Holds c v a k → Holds c v b n → Advance v c d)
    (hc₁ : Assigned c c₁) (hd₁ : Assigned d d₁)
    (hraw : ∀ w, c.isInput w = true → d₁.wires.raw? w = c₁.wires.raw? w)
    (hok : c₁.execute.failure = none)
    (hseen : ∀ w ∈ a.bits ++ b.bits, c₁.execute.state.wires.seen? w ≠ none)
    (hinputs : ∀ p ∈ c.inputComplements, p.2 ∈ a.bits ++ b.bits →
      c₁.execute.state.wires.seen? p.1 ≠ none) : d₁.execute.failure = none := by
  have hholds : ∀ x : Word, x.bits ⊆ a.bits ++ b.bits → (∀ w ∈ x.bits, Usable c w) →
      ∃ n, Holds c c₁.execute.state.wires.seen? x n := by
    intro x hx husable
    refine Holds.of_operands (fun w hw => ?_) fun w hw => hseen w (hx hw)
    refine (husable w hw).operand (hseen w (hx hw)) ?_
    rintro p hp rfl
    exact hinputs p hp (hx hw)
  obtain ⟨k, hk⟩ := hholds a (List.subset_append_left ..) ha
  obtain ⟨n, hn⟩ := hholds b (List.subset_append_right ..) hb
  exact (hadv _ k n hk hn).executes hc₁ hd₁ hraw hok

end Word

end GateNet
