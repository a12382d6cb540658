import GateNet.Proofs.Building

/-!
How gadgets are put together. A gadget is assembled from acts of building, one after the other, where a
later one may depend on what the earlier ones returned. So what holds of the acts and is kept by taking
one step after another holds of every gadget: in particular, a gadget only grows the circuit.
-/

namespace GateNet

open Relation

namespace Build

variable {α β : Type}

/-- The step is assembled from acts of building, and it is at no fault of its own but a caller's. -/
inductive Assembled : {α : Type} → Build α → Prop
  | pure {α : Type} (a : α) : Assembled (Pure.pure a)
  | fault {α : Type} {e : Fault} : ¬ e.Internal → Assembled (throw e : Build α)
  | bind {α β : Type} {m : Build α} {f : α → Build β} : Assembled m → (∀ a, Assembled (f a)) →
      Assembled (m >>= f)
  | wire (value : Option Bool) : Assembled (freshWire false value)
  | input : Assembled issueInput
  | gate (function : GateFunction) (a b : Nat) : Assembled (addGate function a b)
  | invert (w : Nat) : Assembled (Build.invert w)

/-! ### Steps that only grow a circuit -/

/-- The step leads from circuit to circuit by acts of building alone, until it succeeds or is at fault;
at an internal fault the next wire is taken. -/
structure Grows (m : Build α) : Prop where
  growth : ∀ {c a c'}, m c = .ok (a, c') → ReflTransGen Circuit.Growth c c'
  fault : ∀ {c e}, m c = .error e → e.Internal → ∃ d, ReflTransGen Circuit.Growth c d ∧ d.NextTaken

theorem grows_pure (a : α) : Grows (pure a) where
  growth h := by rw [(pure_ok_iff.mp h).2]
  fault h := by cases h

theorem grows_throw {e : Fault} (he : ¬ e.Internal) : Grows (throw e : Build α) where
  growth h := (throw_ok_iff.mp h).elim
  fault h hi := by
    cases h
    exact (he hi).elim

theorem grows_bind {m : Build α} {f : α → Build β} (hm : Grows m) (hf : ∀ a, Grows (f a)) :
    Grows (m >>= f) where
  growth h := by
    obtain ⟨a, d, h₁, h₂⟩ := bind_ok_iff.mp h
    exact (hm.growth h₁).trans ((hf a).growth h₂)
  fault h he := by
    rcases bind_error_iff.mp h with h | ⟨a, d, h₁, h₂⟩
    · exact hm.fault h he
    · obtain ⟨d', grown, taken⟩ := (hf a).fault h₂ he
      exact ⟨d', (hm.growth h₁).trans grown, taken⟩

theorem grows_freshWire (value : Option Bool) : Grows (freshWire false value) where
  growth h := by
    obtain ⟨can, -, rfl⟩ := freshWire_ok_iff.mp h
    exact .single (.wire value can)
  fault h he := ⟨_, .refl, freshWire_fault h he⟩

theorem grows_issueInput : Grows issueInput where
  growth h := by
    obtain ⟨can, -, rfl⟩ := issueInput_ok_iff.mp h
    exact .single (.input can)
  fault h he := ⟨_, .refl, issueInput_fault h he⟩

theorem grows_addGate (function : GateFunction) (a b : Nat) : Grows (addGate function a b) where
  growth h := by
    obtain ⟨can, ha, hb, free, -, rfl⟩ := addGate_ok_iff.mp h
    exact .single (.gate function can ha hb free)
  fault h he := ⟨_, .refl, addGate_fault h he⟩

theorem grows_invert (w : Nat) : Grows (invert w) where
  growth h := by
    rcases invert_ok_iff.mp h with ⟨-, rfl⟩ | ⟨memo, can, -, cell, hc, h⟩
    · exact .refl
    · rcases h with ⟨hi, rfl⟩ | ⟨hi, g, hg, free, rfl⟩ | ⟨-, -, bit, -, rfl⟩
      · exact .single (.inputComplement can memo hc hi)
      · exact .single (.gateComplement can memo hc hi hg free)
      · exact .single (.wire _ can)
  fault h he := ⟨_, .refl, invert_fault h he⟩

/-- What is assembled from acts of building only grows a circuit. -/
theorem Assembled.grows {m : Build α} (h : Assembled m) : Grows m := by
  induction h with
  | pure a => exact grows_pure a
  | fault he => exact grows_throw he
  | bind _ _ hm hf => exact grows_bind hm hf
  | wire value => exact grows_freshWire value
  | input => exact grows_issueInput
  | gate function a b => exact grows_addGate function a b
  | invert w => exact grows_invert w

/-! ### Combinations -/

theorem assembled_map {m : Build α} (f : α → β) (hm : Assembled m) : Assembled (f <$> m) := by
  rw [map_eq_pure_bind]
  exact .bind hm fun a => .pure (f a)

theorem assembled_mapM {f : β → Build α} (hf : ∀ b, Assembled (f b)) (l : List β) :
    Assembled (l.mapM f) := by
  induction l with
  | nil => rw [List.mapM_nil]; exact .pure _
  | cons b rest ih =>
    rw [List.mapM_cons]
    exact .bind (hf b) fun a => .bind ih fun as => .pure _

theorem assembled_lift {x : Except Fault α} (hx : ∀ e, x = .error e → ¬ e.Internal) :
    Assembled (liftM x : Build α) := by
  cases x with
  | error e => exact .fault (hx e rfl)
  | ok b => exact .pure b

/-! ### The gadgets -/

theorem assembled_fullAdder (a b carry : Nat) : Assembled (fullAdder a b carry) :=
  .bind (.gate ..) fun _ => .bind (.gate ..) fun _ =>
    .bind (.gate ..) fun _ => .bind (.gate ..) fun _ =>
    .bind (.gate ..) fun _ => .pure _

theorem assembled_select (sel whenTrue whenFalse : Nat) : Assembled (select sel whenTrue whenFalse) :=
  .bind (.invert sel) fun _ => .bind (.gate ..) fun _ =>
    .bind (.gate ..) fun _ => .gate ..

theorem assembled_bitEqual (a b : Nat) : Assembled (bitEqual a b) :=
  .bind (.gate ..) fun differ => .invert differ

end Build

namespace Word

open Build

theorem assembled_issueInputs (width : Nat) : Assembled (issueInputs width) :=
  .bind (assembled_mapM (fun _ => .input) _) fun _ => .pure _

theorem assembled_ofConstants (bits : List Bool) : Assembled (ofConstants bits) :=
  .bind (assembled_mapM (fun _ => .wire _) _) fun _ => .pure _

theorem assembled_requireSameWidth (a b : Word) : Assembled (requireSameWidth a b) := by
  by_cases hw : a.width = b.width
  · have hpass : requireSameWidth a b = pure () := funext fun c => if_pos hw
    rw [hpass]
    exact .pure ()
  · have hthrow : requireSameWidth a b = throw .widthMismatch := funext fun c => if_neg hw
    rw [hthrow]
    exact .fault id

theorem assembled_msb (a : Word) : Assembled (liftM a.msb : Build Nat) := by
  refine assembled_lift fun e h => ?_
  rw [msb] at h
  split at h
  · cases h
  · cases h
    exact id

theorem assembled_ripple (carry : Nat) (pairs : List (Nat × Nat)) : Assembled (ripple carry pairs) := by
  induction pairs generalizing carry with
  | nil => exact .pure _
  | cons pair rest ih =>
    exact .bind (assembled_fullAdder ..) fun s => .bind (ih s.2) fun _ => .pure _

theorem assembled_add (a b : Word) : Assembled (add a b) :=
  .bind (assembled_requireSameWidth a b) fun _ => .bind (.wire _) fun _ =>
    .bind (assembled_ripple ..) fun _ => .pure _

theorem assembled_negate (a : Word) : Assembled (negate a) :=
  .bind (assembled_mapM .invert _) fun _ => .bind (assembled_ofConstants _) fun _ =>
    assembled_add ..

theorem assembled_sub (a b : Word) : Assembled (sub a b) :=
  .bind (assembled_requireSameWidth a b) fun _ => .bind (assembled_negate b) fun _ =>
    assembled_add ..

theorem assembled_lessBelow (result equal : Nat) (pairs : List (Nat × Nat)) :
    Assembled (lessBelow result equal pairs) := by
  induction pairs generalizing result equal with
  | nil => exact .pure _
  | cons pair rest ih =>
    refine .bind (.invert _) fun _ => .bind (.gate ..) fun _ =>
      .bind (.gate ..) fun _ => .bind (.gate ..) fun _ => ?_
    cases rest with
    | nil => exact .pure _
    | cons next more =>
      exact .bind (assembled_bitEqual ..) fun _ => .bind (.gate ..) fun _ => ih _ _

theorem assembled_lessFromTop (a b : Word) (signs : Nat) : Assembled (lessFromTop a b signs) := by
  refine .bind (assembled_requireSameWidth a b) fun _ => ?_
  cases pairsFromTop a b with
  | nil => exact .fault id
  | cons top rest =>
    exact .bind (.wire _) fun _ => .bind (assembled_bitEqual ..) fun _ =>
      .bind (.gate ..) fun _ => assembled_lessBelow ..

theorem assembled_less (a b : Word) : Assembled (less a b) :=
  .bind (assembled_requireSameWidth a b) fun _ => .bind (assembled_msb _) fun _ =>
    .bind (.invert _) fun _ => .bind (assembled_msb _) fun _ =>
    .bind (.gate ..) fun _ => assembled_lessFromTop ..

theorem assembled_lessUnsigned (a b : Word) : Assembled (lessUnsigned a b) :=
  .bind (assembled_requireSameWidth a b) fun _ => .bind (assembled_msb _) fun _ =>
    .bind (.invert _) fun _ => .bind (assembled_msb _) fun _ =>
    .bind (.gate ..) fun _ => assembled_lessFromTop ..

theorem assembled_equalFrom (result : Nat) (pairs : List (Nat × Nat)) :
    Assembled (equalFrom result pairs) := by
  induction pairs generalizing result with
  | nil => exact .pure _
  | cons pair rest ih =>
    exact .bind (assembled_bitEqual ..) fun _ => .bind (.gate ..) fun _ => ih _

theorem assembled_equal (a b : Word) : Assembled (equal a b) :=
  .bind (assembled_requireSameWidth a b) fun _ => .bind (.wire _) fun _ =>
    assembled_equalFrom ..

theorem assembled_lessOrEqual (a b : Word) : Assembled (lessOrEqual a b) :=
  .bind (assembled_less a b) fun _ => .bind (assembled_equal a b) fun _ => .gate ..

theorem assembled_lessOrEqualUnsigned (a b : Word) : Assembled (lessOrEqualUnsigned a b) :=
  .bind (assembled_lessUnsigned a b) fun _ => .bind (assembled_equal a b) fun _ =>
    .gate ..

theorem assembled_select (sel : Nat) (whenTrue whenFalse : Word) :
    Assembled (select sel whenTrue whenFalse) :=
  .bind (assembled_requireSameWidth ..) fun _ =>
    .bind (assembled_mapM (fun _ => Build.assembled_select ..) _) fun _ => .pure _

theorem assembled_abs (a : Word) : Assembled (abs a) :=
  .bind (assembled_negate a) fun _ => .bind (assembled_msb _) fun _ => assembled_select ..

theorem assembled_divisionStep (remainder divisor : Word) : Assembled (divisionStep remainder divisor) :=
  .bind (assembled_lessOrEqualUnsigned ..) fun _ => .bind (assembled_sub ..) fun _ =>
    .bind (assembled_select ..) fun _ => .pure _

theorem assembled_divideFrom (divisor remainder : Word) (quotient bits : List Nat) :
    Assembled (divideFrom divisor remainder quotient bits) := by
  induction bits generalizing remainder quotient with
  | nil => exact .pure _
  | cons bit rest ih => exact .bind (assembled_divisionStep ..) fun step => ih step.1 _

/-- What is left of a division after the magnitudes. -/
theorem assembled_quotient (a b dividend divisor : Word) :
    Assembled (do
      let remainder ← ofConstants (List.replicate a.width false)
      let quotient ← divideFrom divisor remainder [] dividend.bits.reverse
      let negated ← negate quotient
      let signsDiffer ← Build.xor (← a.msb) (← b.msb)
      select signsDiffer negated quotient) :=
  .bind (assembled_ofConstants _) fun _ => .bind (assembled_divideFrom ..) fun _ =>
    .bind (assembled_negate _) fun _ => .bind (assembled_msb _) fun _ =>
    .bind (assembled_msb _) fun _ => .bind (.gate ..) fun _ => assembled_select ..

theorem assembled_div (a b : Word) : Assembled (div a b) :=
  .bind (assembled_requireSameWidth a b) fun _ => .bind (assembled_abs a) fun _ =>
    .bind (assembled_abs b) fun _ => assembled_quotient ..

end Word

/-- Every step of building is assembled from acts of building. -/
theorem Construction.assembled_run (step : Construction) : Build.Assembled step.run := by
  cases step with
  | issueWire => exact Build.assembled_map _ (.wire _)
  | issueInput => exact Build.assembled_map _ .input
  | constant bit => exact Build.assembled_map _ (.wire _)
  | addGate function a b => exact Build.assembled_map _ (.gate ..)
  | invert w => exact Build.assembled_map _ (.invert w)
  | fullAdder a b carry => exact Build.assembled_map _ (Build.assembled_fullAdder ..)
  | select sel whenTrue whenFalse => exact Build.assembled_map _ (Build.assembled_select ..)
  | issueInputs width => exact Build.assembled_map _ (Word.assembled_issueInputs width)
  | add a b => exact Build.assembled_map _ (Word.assembled_add a b)
  | negate a => exact Build.assembled_map _ (Word.assembled_negate a)
  | sub a b => exact Build.assembled_map _ (Word.assembled_sub a b)
  | less a b => exact Build.assembled_map _ (Word.assembled_less a b)
  | lessUnsigned a b => exact Build.assembled_map _ (Word.assembled_lessUnsigned a b)
  | lessOrEqual a b => exact Build.assembled_map _ (Word.assembled_lessOrEqual a b)
  | lessOrEqualUnsigned a b => exact Build.assembled_map _ (Word.assembled_lessOrEqualUnsigned a b)
  | equal a b => exact Build.assembled_map _ (Word.assembled_equal a b)
  | divisionStep remainder divisor => exact Build.assembled_map _ (Word.assembled_divisionStep ..)
  | div a b => exact Build.assembled_map _ (Word.assembled_div a b)

end GateNet
