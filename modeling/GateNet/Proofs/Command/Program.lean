import GateNet.Command.Execution

/-!
How programs run. A program goes on from what was printed before and from the files as they are, and
ends in a result or a report, with what it printed added and the files as it leaves them. A step that
ends in a report ends the program, and what was printed before stays printed.
-/

namespace GateNet.Command

variable {σ α β : Type} {out out' out'' : String} {s s' s'' : σ}

/-- The program ends in the result, with the text printed by then and the files left as given. -/
def Ends (p : Program (StateM σ) α) (out : String) (s : σ) (r : Except Report α) (out' : String)
    (s' : σ) : Prop :=
  p.run out s = ((r, out'), s')

/-- The exit of a program that ended in the result and has printed the text. -/
def exitOf (r : Except Report Unit) (output : String) : Exit :=
  match r with
  | .ok () => { code := 0, output }
  | .error report => { code := 1, output, failures := report.text }

namespace Ends

variable {p : Program (StateM σ) α} {f : α → Program (StateM σ) β} {r : Except Report β} {a : α}
  {report : Report}

theorem pure (a : α) : Ends (Pure.pure a : Program (StateM σ) α) out s (.ok a) out s := rfl

theorem throw : Ends (MonadExcept.throw report : Program (StateM σ) α) out s (.error report) out s :=
  rfl

/-- The rest of a program runs on what a step leaves, unless that ends in a report. -/
theorem run_bind (p : Program (StateM σ) α) (f : α → Program (StateM σ) β) :
    (p >>= f).run out s = match p.run out s with
      | ((.ok a, out'), s') => (f a).run out' s'
      | ((.error report, out'), s') => ((.error report, out'), s') := by
  show ExceptT.bind p f out s = _
  simp only [ExceptT.bind, ExceptT.mk, Bind.bind, StateT.bind]
  show (match p.run out s with | (a, s') => ExceptT.bindCont f a.1 a.2 s') = _
  rcases p.run out s with ⟨⟨r, out'⟩, s'⟩
  cases r <;> rfl

/-- A step that ends in a result is followed by the rest. -/
theorem bind (h : Ends p out s (.ok a) out' s') (h' : Ends (f a) out' s' r out'' s'') :
    Ends (p >>= f) out s r out'' s'' := by
  rw [Ends, run_bind, h]
  exact h'

/-- A step that ends in a report is not. -/
theorem bind_error (h : Ends p out s (.error report) out' s') :
    Ends (p >>= f) out s (.error report) out' s' := by
  rw [Ends, run_bind, h]

theorem within {r : Except Report α} (h : Ends p out s r out' s') (context : String) :
    Ends (Command.within context p) out s (r.mapError (.within context)) out' s' := by
  show (Bind.bind p.run _) out s = _
  simp only [Bind.bind, StateT.bind]
  have hp : p.run out s = ((r, out'), s') := h
  rw [hp]
  rfl

/-- How a program ended decides on the exit, and the files stay as it left them. -/
theorem exit_eq {p : Program (StateM σ) Unit} {r : Except Report Unit} (h : Ends p "" s r out s') :
    Exit.ofProgram p s = (exitOf r out, s') := by
  show (Bind.bind (p.run.run "") _) s = _
  simp only [Bind.bind, StateT.bind]
  have hp : p.run.run "" s = ((r, out), s') := h
  rw [hp]
  cases r <;> rfl

end Ends

theorem ends_say (line : String) :
    Ends (say line : Program (StateM σ) Unit) out s (.ok ()) (out ++ line ++ "\n") s := rfl

theorem ends_ofCause {x : Except Cause α} {a : α} (h : x = .ok a) :
    Ends (ofCause x : Program (StateM σ) α) out s (.ok a) out s := by
  subst h
  rfl

theorem ends_ofInteger {x r : Except IntegerError α} (h : x = r) :
    Ends (ofInteger x : Program (StateM σ) α) out s (r.mapError .ofIntegerError) out s := by
  subst h
  rfl

theorem ends_ofBuild {step : Build α} {c d : Circuit} {a : α} (h : step c = .ok (a, d)) :
    Ends (ofBuild step c : Program (StateM σ) (α × Circuit)) out s (.ok (a, d)) out s := by
  show ((Pure.pure ((step c).mapError Report.ofFault) : StateT String (StateM σ) _) out s) = _
  rw [h]
  rfl

theorem ends_ofHost {action : StateM σ (Except CircuitError α)} {r : Except CircuitError α}
    (h : action s = (r, s')) : Ends (ofHost action) out s (r.mapError .ofCircuitError) out s' := by
  show (Bind.bind (StateT.lift action : StateT String (StateM σ) _) _) out s = _
  simp only [Bind.bind, StateT.bind, StateT.lift]
  rw [h]
  rfl

end GateNet.Command
