import GateNet.Proofs.Assembly

/-!
The wires of a result are new. The number of the next wire only grows while something is built, so wires
that are issued one after the other come in ascending order, and whatever ends in gates ends in wires of
which no two are the same.
-/

namespace GateNet

open Relation

theorem Circuit.nextWire_grown {c d : Circuit} (h : ReflTransGen Circuit.Growth c d) :
    c.nextWire ≤ d.nextWire := by
  induction h with
  | refl => exact Nat.le_refl _
  | tail _ step ih =>
    obtain ⟨-, -, hnext, -⟩ := step.issues
    omega

namespace Build

variable {α β : Type}

/-- The wires of every result are in ascending order, and they are issued by the step. -/
structure Issues (wires : α → List Nat) (m : Build α) : Prop where
  ascending : ∀ {c a d}, m c = .ok (a, d) → (wires a).Pairwise (· < ·)
  fresh : ∀ {c a d}, m c = .ok (a, d) → ∀ w ∈ wires a, c.nextWire ≤ w ∧ w < d.nextWire

namespace Issues

variable {γ : Type} {wires : β → List Nat} {m : Build α} {f : α → Build β}

theorem nothing {a : β} (h : wires a = []) : Issues wires (pure a : Build β) where
  ascending hok := by
    obtain ⟨rfl, rfl⟩ := pure_ok_iff.mp hok
    simp [h]
  fresh hok := by
    obtain ⟨rfl, rfl⟩ := pure_ok_iff.mp hok
    simp [h]

theorem none (m : Build α) : Issues (fun _ => []) m where
  ascending _ := .nil
  fresh _ _ hw := nomatch hw

/-- What is built before makes no difference. -/
theorem after (hm : Assembled m) (hf : ∀ a, Issues wires (f a)) : Issues wires (m >>= f) where
  ascending h := by
    obtain ⟨a, e, -, h₂⟩ := bind_ok_iff.mp h
    exact (hf a).ascending h₂
  fresh h w hw := by
    obtain ⟨a, e, h₁, h₂⟩ := bind_ok_iff.mp h
    have hle := Circuit.nextWire_grown (hm.grows.growth h₁)
    obtain ⟨hlow, hhigh⟩ := (hf a).fresh h₂ w hw
    exact ⟨Nat.le_trans hle hlow, hhigh⟩

/-- Wires that are issued one after the other are ascending together. -/
theorem append {first : α → List Nat} {second : β → List Nat} {wires : γ → List Nat}
    {g : α → β → γ} (hm : Assembled m) (hfirst : Issues first m) (hf : ∀ a, Assembled (f a))
    (hsecond : ∀ a, Issues second (f a)) (hwires : ∀ a b, wires (g a b) = first a ++ second b) :
    Issues wires (m >>= fun a => f a >>= fun b => pure (g a b)) where
  ascending h := by
    obtain ⟨a, e, h₁, h⟩ := bind_ok_iff.mp h
    obtain ⟨b, e', h₂, h⟩ := bind_ok_iff.mp h
    obtain ⟨rfl, rfl⟩ := pure_ok_iff.mp h
    rw [hwires]
    refine List.pairwise_append.mpr ⟨hfirst.ascending h₁, (hsecond a).ascending h₂,
      fun v hv w hw => ?_⟩
    exact Nat.lt_of_lt_of_le (hfirst.fresh h₁ v hv).2 ((hsecond a).fresh h₂ w hw).1
  fresh h w hw := by
    obtain ⟨a, e, h₁, h⟩ := bind_ok_iff.mp h
    obtain ⟨b, e', h₂, h⟩ := bind_ok_iff.mp h
    obtain ⟨rfl, rfl⟩ := pure_ok_iff.mp h
    have hle := Circuit.nextWire_grown (hm.grows.growth h₁)
    have hle' := Circuit.nextWire_grown ((hf a).grows.growth h₂)
    rw [hwires, List.mem_append] at hw
    rcases hw with hw | hw
    · obtain ⟨hlow, hhigh⟩ := hfirst.fresh h₁ w hw
      exact ⟨hlow, Nat.lt_of_lt_of_le hhigh hle'⟩
    · obtain ⟨hlow, hhigh⟩ := (hsecond a).fresh h₂ w hw
      exact ⟨Nat.le_trans hle hlow, hhigh⟩

/-- A result in another form has the wires that it had. -/
theorem map {wires' : α → List Nat} {g : α → β} (hm : Issues wires' m)
    (hwires : ∀ a, wires (g a) = wires' a) : Issues wires (m >>= fun a => pure (g a)) where
  ascending h := by
    obtain ⟨a, e, h₁, h₂⟩ := bind_ok_iff.mp h
    obtain ⟨rfl, rfl⟩ := pure_ok_iff.mp h₂
    rw [hwires]
    exact hm.ascending h₁
  fresh h := by
    obtain ⟨a, e, h₁, h₂⟩ := bind_ok_iff.mp h
    obtain ⟨rfl, rfl⟩ := pure_ok_iff.mp h₂
    rw [hwires]
    exact hm.fresh h₁

end Issues

theorem issues_addGate (function : GateFunction) (a b : Nat) :
    Issues (fun w => [w]) (addGate function a b) where
  ascending _ := List.pairwise_singleton ..
  fresh h w hw := by
    obtain ⟨-, -, -, -, rfl, rfl⟩ := addGate_ok_iff.mp h
    obtain rfl := List.mem_singleton.mp hw
    exact ⟨Nat.le_refl _, Nat.lt_succ_self _⟩

theorem issues_mapM {f : β → Build Nat} (ha : ∀ b, Assembled (f b))
    (hf : ∀ b, Issues (fun w => [w]) (f b)) (l : List β) : Issues id (l.mapM f) := by
  induction l with
  | nil =>
    rw [List.mapM_nil]
    exact .nothing rfl
  | cons b rest ih =>
    rw [List.mapM_cons]
    exact .append (ha b) (hf b) (fun _ => assembled_mapM ha rest) (fun _ => ih) fun _ _ => rfl

/-- The sum of a stage is new; the carry is issued after it. -/
theorem issues_fullAdder (a b carry : Nat) : Issues (fun r => [r.1]) (fullAdder a b carry) := by
  have hsplit : fullAdder a b carry = (xor a b >>= fun half => xor half carry >>= fun sum =>
      (and a b >>= fun both => and half carry >>= fun passed => or both passed) >>= fun carryOut =>
        pure (sum, carryOut)) := by
    simp only [fullAdder, bind_assoc]
  rw [hsplit]
  refine .after (.gate ..) fun half => .append (.gate ..) (issues_addGate ..) (fun _ => ?_)
    (fun _ => .none _) fun _ _ => rfl
  exact .bind (.gate ..) fun _ => .bind (.gate ..) fun _ => .gate ..

theorem issues_select (sel whenTrue whenFalse : Nat) :
    Issues (fun w => [w]) (select sel whenTrue whenFalse) :=
  .after (.invert sel) fun _ => .after (.gate ..) fun _ => .after (.gate ..) fun _ =>
    issues_addGate ..

end Build

namespace Word

open Build

theorem issues_ripple (carry : Nat) (pairs : List (Nat × Nat)) : Issues id (ripple carry pairs) := by
  induction pairs generalizing carry with
  | nil => exact .nothing rfl
  | cons pair rest ih =>
    exact .append (assembled_fullAdder ..) (issues_fullAdder ..) (fun s => assembled_ripple s.2 rest)
      (fun s => ih s.2) fun _ _ => rfl

theorem issues_add (a b : Word) : Issues bits (add a b) :=
  .after (assembled_requireSameWidth a b) fun _ => .after (.wire _) fun _ =>
    .map (issues_ripple ..) fun _ => rfl

theorem issues_negate (a : Word) : Issues bits (negate a) :=
  .after (assembled_mapM .invert _) fun _ => .after (assembled_ofConstants _) fun _ => issues_add ..

theorem issues_sub (a b : Word) : Issues bits (sub a b) :=
  .after (assembled_requireSameWidth a b) fun _ => .after (assembled_negate b) fun _ => issues_add ..

theorem issues_select (sel : Nat) (whenTrue whenFalse : Word) :
    Issues bits (select sel whenTrue whenFalse) :=
  .after (assembled_requireSameWidth ..) fun _ =>
    .map (issues_mapM (fun _ => Build.assembled_select ..) (fun _ => Build.issues_select ..) _)
      fun _ => rfl

theorem issues_div (a b : Word) : Issues bits (div a b) :=
  .after (assembled_requireSameWidth a b) fun _ => .after (assembled_abs a) fun _ =>
    .after (assembled_abs b) fun _ => .after (assembled_ofConstants _) fun _ =>
    .after (assembled_divideFrom ..) fun _ => .after (assembled_negate _) fun _ =>
    .after (assembled_msb _) fun _ => .after (assembled_msb _) fun _ =>
    .after (.gate ..) fun _ => issues_select ..

end Word

end GateNet
