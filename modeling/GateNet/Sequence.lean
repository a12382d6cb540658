/-!
Runs of steps that may fail. A run takes its steps in order and stops at the first that fails; what the
steps before it did stays done. So a run that fails ends where a run of the steps before the failure
ends, and a run that succeeds has taken every step. What a step did before it failed is not lost either,
if it is an attempt itself.
-/

namespace GateNet

/-- Where a run of steps ended, and what stopped it if it did not reach the end. -/
structure Attempt (σ ε : Type) where
  state : σ
  failure : Option ε

/-- The end of a run that no step stopped, or what stopped it. -/
def Attempt.result {σ ε : Type} (run : Attempt σ ε) : Except ε σ :=
  match run.failure with
  | none => .ok run.state
  | some e => .error e

/-- The attempt of a step that has done nothing if it fails. -/
def Attempt.ofStep {σ ε : Type} (before : σ) : Except ε σ → Attempt σ ε
  | .ok after => ⟨after, none⟩
  | .error e => ⟨before, some e⟩

/-- Make the attempts in order until one fails; what it did before it failed stays done too. -/
def runAttempts {σ α ε : Type} (attempt : σ → α → Attempt σ ε) (state : σ) : List α → Attempt σ ε
  | [] => ⟨state, none⟩
  | a :: rest =>
    match attempt state a with
    | ⟨next, none⟩ => runAttempts attempt next rest
    | stopped => stopped

/-- Take the steps in order until one fails. -/
def runSteps {σ α ε : Type} (step : σ → α → Except ε σ) (state : σ) : List α → Attempt σ ε
  | [] => ⟨state, none⟩
  | a :: rest =>
    match step state a with
    | .ok next => runSteps step next rest
    | .error e => ⟨state, some e⟩

variable {σ α ε : Type} {step : σ → α → Except ε σ}

@[simp] theorem runSteps_nil (s : σ) : runSteps step s [] = ⟨s, none⟩ := rfl

theorem runSteps_cons_ok {s s' : σ} {a : α} (h : step s a = .ok s') (rest : List α) :
    runSteps step s (a :: rest) = runSteps step s' rest := by
  simp [runSteps, h]

theorem runSteps_cons_error {s : σ} {a : α} {e : ε} (h : step s a = .error e) (rest : List α) :
    runSteps step s (a :: rest) = ⟨s, some e⟩ := by
  simp [runSteps, h]

/-- A run of two lists is a run of the first and then, unless that failed, of the second. -/
theorem runSteps_append (s : σ) (as bs : List α) :
    runSteps step s (as ++ bs) =
      match runSteps step s as with
      | ⟨s', none⟩ => runSteps step s' bs
      | ⟨s', some e⟩ => ⟨s', some e⟩ := by
  induction as generalizing s with
  | nil => rfl
  | cons a rest ih =>
    cases h : step s a with
    | ok s' => simp [runSteps_cons_ok h, ih]
    | error e => simp [runSteps_cons_error h]

/-- Attempts that have done nothing when they fail run as steps do. -/
theorem runAttempts_eq_runSteps {attempt : σ → α → Attempt σ ε}
    (h : ∀ s a, attempt s a = .ofStep s (step s a)) (s : σ) (as : List α) :
    runAttempts attempt s as = runSteps step s as := by
  induction as generalizing s with
  | nil => rfl
  | cons a rest ih =>
    rw [runAttempts, h]
    cases hs : step s a with
    | ok s' => exact (ih s').trans (runSteps_cons_ok hs rest).symm
    | error e => exact (runSteps_cons_error hs rest).symm

end GateNet
