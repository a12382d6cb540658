import Mathlib.Data.List.Forall2
import GateNet.Sequence

/-!
Steps that may fail, taken apart. A composite step succeeds exactly if its parts do, and a run that no
step stops has taken them all.
-/

namespace GateNet

variable {α β γ ε δ : Type}

theorem bind_ok_iff {x : Except ε α} {f : α → Except ε β} {b : β} :
    (x >>= f) = .ok b ↔ ∃ a, x = .ok a ∧ f a = .ok b := by
  cases x with
  | error e => simp [bind, Except.bind]
  | ok a => simp [bind, Except.bind]

theorem pure_ok_iff {a b : α} : (pure a : Except ε α) = .ok b ↔ a = b := by
  simp [pure, Except.pure]

theorem throw_ok_iff {e : ε} {a : α} : (throw e : Except ε α) = .ok a ↔ False :=
  ⟨nofun, False.elim⟩

theorem mapError_ok_iff {x : Except ε α} {f : ε → δ} {a : α} :
    x.mapError f = .ok a ↔ x = .ok a := by
  cases x with
  | error e => exact ⟨nofun, nofun⟩
  | ok b =>
    show (Except.ok b : Except δ α) = .ok a ↔ (Except.ok b : Except ε α) = .ok a
    rw [Except.ok.injEq, Except.ok.injEq]

theorem map_ok_iff {x : Except ε α} {f : α → β} {b : β} :
    x.map f = .ok b ↔ ∃ a, x = .ok a ∧ f a = b := by
  cases x <;> simp [Except.map]

theorem foldlM_cons_ok_iff {step : β → α → Except ε β} {b d : β} {a : α} {rest : List α} :
    (a :: rest).foldlM step b = .ok d ↔ ∃ c, step b a = .ok c ∧ rest.foldlM step c = .ok d := by
  rw [List.foldlM_cons, bind_ok_iff]

theorem bind_error_iff {x : Except ε α} {f : α → Except ε β} {e : ε} :
    (x >>= f) = .error e ↔ x = .error e ∨ ∃ a, x = .ok a ∧ f a = .error e := by
  cases x with
  | error e' => simp [bind, Except.bind]
  | ok a => simp [bind, Except.bind]

theorem pure_error_iff {a : α} {e : ε} : (pure a : Except ε α) = .error e ↔ False :=
  ⟨nofun, False.elim⟩

theorem mapError_error_iff {x : Except ε α} {f : ε → δ} {e' : δ} :
    x.mapError f = .error e' ↔ ∃ e, x = .error e ∧ e' = f e := by
  cases x with
  | error e => simp [Except.mapError, eq_comm]
  | ok a => simp [Except.mapError]

/-- Steps that are taken in order fail as the first of them that fails after those before it. -/
theorem foldlM_error_iff {step : β → α → Except ε β} {b : β} {as : List α} {e : ε} :
    as.foldlM step b = .error e ↔
      ∃ before a after c, as = before ++ a :: after ∧ before.foldlM step b = .ok c ∧
        step c a = .error e := by
  induction as generalizing b with
  | nil => simp [pure, Except.pure]
  | cons a rest ih =>
    rw [List.foldlM_cons, bind_error_iff]
    constructor
    · rintro (ha | ⟨c, hc, hrest⟩)
      · exact ⟨[], a, rest, b, rfl, rfl, ha⟩
      · obtain ⟨before, a', after, d, rfl, hd, he⟩ := ih.mp hrest
        exact ⟨a :: before, a', after, d, rfl, foldlM_cons_ok_iff.mpr ⟨c, hc, hd⟩, he⟩
    · rintro ⟨before, a', after, d, has, hd, he⟩
      cases before with
      | nil =>
        cases has
        cases hd
        exact .inl he
      | cons a₀ before =>
        cases has
        obtain ⟨c, hc, hd⟩ := foldlM_cons_ok_iff.mp hd
        exact .inr ⟨c, hc, ih.mpr ⟨before, a', after, d, rfl, hd, he⟩⟩

theorem forM_ok_iff {f : α → Except ε Unit} {as : List α} {u : Unit} :
    as.forM f = .ok u ↔ ∀ a ∈ as, f a = .ok () := by
  induction as with
  | nil => exact ⟨fun _ => nofun, fun _ => rfl⟩
  | cons a rest ih =>
    show (f a >>= fun _ => rest.forM f) = .ok u ↔ _
    rw [bind_ok_iff, List.forall_mem_cons, ← ih]
    exact ⟨fun ⟨_, ha, hrest⟩ => ⟨ha, hrest⟩, fun ⟨ha, hrest⟩ => ⟨(), ha, hrest⟩⟩

theorem forM_eq_foldlM (f : α → Except ε Unit) (as : List α) :
    as.forM f = as.foldlM (fun _ a => f a) () := by
  induction as with
  | nil => rfl
  | cons a rest ih =>
    show (f a >>= fun _ => rest.forM f) = _
    rw [List.foldlM_cons, ih]

/-- A check of every element of a list fails as that of the first element for which it does. -/
theorem forM_error_iff {f : α → Except ε Unit} {as : List α} {e : ε} :
    as.forM f = .error e ↔ ∃ before a after, as = before ++ a :: after ∧
      (∀ b ∈ before, f b = .ok ()) ∧ f a = .error e := by
  rw [forM_eq_foldlM, foldlM_error_iff]
  simp only [← forM_eq_foldlM, forM_ok_iff, exists_const]

theorem mapM_cons_ok_iff {f : α → Except ε β} {a : α} {rest : List α} {found : List β} :
    (a :: rest).mapM f = .ok found ↔
      ∃ b bs, f a = .ok b ∧ rest.mapM f = .ok bs ∧ found = b :: bs := by
  rw [List.mapM_cons, bind_ok_iff]
  simp only [bind_ok_iff, pure_ok_iff]
  constructor
  · rintro ⟨b, hb, bs, hbs, rfl⟩
    exact ⟨b, bs, hb, hbs, rfl⟩
  · rintro ⟨b, bs, hb, hbs, rfl⟩
    exact ⟨b, hb, bs, hbs, rfl⟩

theorem mapM_ok_mem {f : α → Except ε β} {as : List α} {bs : List β} (h : as.mapM f = .ok bs) :
    ∀ a ∈ as, ∃ b, f a = .ok b := by
  induction as generalizing bs with
  | nil => simp
  | cons a rest ih =>
    obtain ⟨b, bs', hb, hrest, -⟩ := mapM_cons_ok_iff.mp h
    intro a' ha'
    rcases List.mem_cons.mp ha' with rfl | ha'
    · exact ⟨b, hb⟩
    · exact ih hrest a' ha'

/-- What a function returns on a list, it returns on its elements. -/
theorem exists_of_mapM_ok {f : α → Except ε β} {as : List α} {bs : List β} (h : as.mapM f = .ok bs)
    {b : β} (hb : b ∈ bs) : ∃ a, f a = .ok b := by
  induction as generalizing bs with
  | nil =>
    cases h
    cases hb
  | cons a rest ih =>
    obtain ⟨b', bs', hb', hrest, rfl⟩ := mapM_cons_ok_iff.mp h
    rcases List.mem_cons.mp hb with rfl | hb
    · exact ⟨a, hb'⟩
    · exact ih hrest hb

/-- A function that succeeds wherever another does, with the same results, does so on lists. -/
theorem mapM_ok_congr {f g : α → Except ε β} (hfg : ∀ a b, f a = .ok b → g a = .ok b) {as : List α}
    {bs : List β} (h : as.mapM f = .ok bs) : as.mapM g = .ok bs := by
  induction as generalizing bs with
  | nil => cases h; rfl
  | cons a rest ih =>
    obtain ⟨b, bs', hb, hrest, rfl⟩ := mapM_cons_ok_iff.mp h
    exact mapM_cons_ok_iff.mpr ⟨b, bs', hfg a b hb, ih hrest, rfl⟩

/-- A function that succeeds on every element of a list returns the list of the results. -/
theorem mapM_ok_of_forall₂ {f : α → Except ε β} {as : List α} {bs : List β}
    (h : List.Forall₂ (fun a b => f a = .ok b) as bs) : as.mapM f = .ok bs := by
  induction h with
  | nil => rfl
  | cons hb _ ih => exact mapM_cons_ok_iff.mpr ⟨_, _, hb, ih, rfl⟩

theorem forall₂_of_mapM_ok {f : α → Except ε β} {as : List α} {bs : List β} (h : as.mapM f = .ok bs) :
    List.Forall₂ (fun a b => f a = .ok b) as bs := by
  induction as generalizing bs with
  | nil => cases h; exact .nil
  | cons a rest ih =>
    obtain ⟨b, bs', hb, hrest, rfl⟩ := mapM_cons_ok_iff.mp h
    exact .cons hb (ih hrest)

/-- A function that undoes another on every element of a list undoes it on the list. -/
theorem mapM_map_ok {f : β → Except ε γ} {g : α → β} {h : α → γ} {as : List α}
    (hfg : ∀ a ∈ as, f (g a) = .ok (h a)) : (as.map g).mapM f = .ok (as.map h) := by
  refine mapM_ok_of_forall₂ ?_
  rw [List.forall₂_map_left_iff, List.forall₂_map_right_iff, List.forall₂_same]
  exact hfg

/-- A function fails on a list as on the first element on which it fails. -/
theorem mapM_error_iff {f : α → Except ε β} {as : List α} {e : ε} :
    as.mapM f = .error e ↔ ∃ before a after, as = before ++ a :: after ∧
      (∀ b ∈ before, ∃ x, f b = .ok x) ∧ f a = .error e := by
  induction as with
  | nil => simp [pure, Except.pure]
  | cons a rest ih =>
    rw [List.mapM_cons, bind_error_iff]
    simp only [bind_error_iff, pure_error_iff, and_false, exists_false, or_false, ih]
    constructor
    · rintro (ha | ⟨x, hx, before, a', after, rfl, hbefore, ha'⟩)
      · exact ⟨[], a, rest, rfl, nofun, ha⟩
      · exact ⟨a :: before, a', after, rfl, List.forall_mem_cons.mpr ⟨⟨x, hx⟩, hbefore⟩, ha'⟩
    · rintro ⟨before, a', after, has, hbefore, ha'⟩
      cases before with
      | nil =>
        cases has
        exact .inl ha'
      | cons b before =>
        cases has
        obtain ⟨⟨x, hx⟩, hbefore⟩ := List.forall_mem_cons.mp hbefore
        exact .inr ⟨x, hx, before, a', after, rfl, hbefore, ha'⟩

/-- A function succeeds on every element of a list, or it fails on the list as it does on the first
element on which it fails. -/
theorem mapM_ok_or_first (f : α → Except ε β) (as : List α) :
    (∃ bs, as.mapM f = .ok bs) ∨ ∃ before a after e, as = before ++ a :: after ∧
      (∀ b ∈ before, ∃ x, f b = .ok x) ∧ f a = .error e ∧ as.mapM f = .error e := by
  cases h : as.mapM f with
  | ok bs => exact .inl ⟨bs, rfl⟩
  | error e =>
    obtain ⟨before, a, after, has, hbefore, ha⟩ := mapM_error_iff.mp h
    exact .inr ⟨before, a, after, e, has, hbefore, ha, rfl⟩

/-- A list of elements that are each related to something is related to a list. -/
theorem exists_list_of_forall {R : α → β → Prop} {as : List α} (h : ∀ a ∈ as, ∃ b, R a b) :
    ∃ bs, List.Forall₂ R as bs := by
  induction as with
  | nil => exact ⟨[], .nil⟩
  | cons a rest ih =>
    obtain ⟨b, hb⟩ := h a (List.mem_cons_self ..)
    obtain ⟨bs, hbs⟩ := ih fun a' ha' => h a' (List.mem_cons_of_mem a ha')
    exact ⟨b :: bs, .cons hb hbs⟩

/-- Every element of a list is related to one of the other list. -/
theorem exists_of_forall₂ {R : α → β → Prop} {as : List α} {bs : List β} (h : List.Forall₂ R as bs)
    {a : α} (ha : a ∈ as) : ∃ b, R a b := by
  induction h with
  | nil => cases ha
  | cons hab _ ih =>
    rcases List.mem_cons.mp ha with rfl | ha
    · exact ⟨_, hab⟩
    · exact ih ha

/-- A run that no step stops has taken its first step, and the others from there. -/
theorem runSteps_cons_done_iff {σ : Type} {step : σ → α → Except ε σ} {s t : σ} {a : α} {rest : List α} :
    runSteps step s (a :: rest) = ⟨t, none⟩ ↔
      ∃ s', step s a = .ok s' ∧ runSteps step s' rest = ⟨t, none⟩ := by
  cases hs : step s a with
  | error e => simp [runSteps_cons_error hs]
  | ok s' => simp [runSteps_cons_ok hs]

/-- A run that fails has taken the steps before some step, and that step fails. -/
theorem runSteps_failed {σ : Type} {step : σ → α → Except ε σ} {s t : σ} {as : List α} {e : ε}
    (h : runSteps step s as = ⟨t, some e⟩) :
    ∃ before a after, as = before ++ a :: after ∧ runSteps step s before = ⟨t, none⟩ ∧
      step t a = .error e := by
  induction as generalizing s with
  | nil => cases h
  | cons a rest ih =>
    cases hs : step s a with
    | error e' =>
      rw [runSteps_cons_error hs] at h
      cases h
      exact ⟨[], a, rest, rfl, rfl, hs⟩
    | ok s' =>
      rw [runSteps_cons_ok hs] at h
      obtain ⟨before, b, after, rfl, hrun, herror⟩ := ih h
      exact ⟨a :: before, b, after, rfl, by rwa [runSteps_cons_ok hs], herror⟩

/-- A run fails at a step that fails where the steps before it lead. -/
theorem runSteps_fails {σ : Type} {step : σ → α → Except ε σ} {s t : σ} {before : List α} {a : α} {e : ε}
    (hrun : runSteps step s before = ⟨t, none⟩) (herror : step t a = .error e) (after : List α) :
    runSteps step s (before ++ a :: after) = ⟨t, some e⟩ := by
  rw [runSteps_append, hrun]
  exact runSteps_cons_error herror after

end GateNet
