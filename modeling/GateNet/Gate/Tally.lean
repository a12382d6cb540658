import GateNet.Gate.Function

/-!
How many gates of each function a circuit has. The tally keeps one counter per code, so counting a gate
changes the counter of its own function by one and no other.
-/

namespace GateNet

/-- A count for each of the sixteen gate functions. -/
structure GateTally where
  counts : Vector Nat 16 := Vector.replicate 16 0
deriving DecidableEq

namespace GateTally

/-- The number of gates counted for `f`. -/
def count (t : GateTally) (f : GateFunction) : Nat := t.counts[f.code]

/-- One more gate of function `f`. -/
def add (t : GateTally) (f : GateFunction) : GateTally :=
  { counts := t.counts.set f.code (t.count f + 1) }

/-- The number of gates counted in all. -/
def total (t : GateTally) : Nat := t.counts.toList.foldr (· + ·) 0

/-- The functions that occur, by code, each with its count. -/
def entries (t : GateTally) : List (GateFunction × Nat) :=
  (List.finRange 16).filterMap fun code =>
    let n := t.count ⟨code⟩
    if n = 0 then none else some (⟨code⟩, n)

/-- The total, and in brackets the functions that occur. -/
def text (t : GateTally) : String :=
  let parts := String.intercalate ", " (t.entries.map fun (f, n) => s!"{f.text}: {n}")
  s!"total {t.total} ({parts})"

theorem count_add (t : GateTally) (f g : GateFunction) :
    (t.add f).count g = if f = g then t.count g + 1 else t.count g := by
  by_cases h : f = g
  · subst h; simp [add, count]
  · have : f.code.val ≠ g.code.val := fun e => h (by cases f; cases g; simp_all [Fin.ext_iff])
    simp [add, count, h, Vector.getElem_set_ne _ _ this]

/-! ### The tally of a list of functions -/

/-- A tally is determined by its counts. -/
theorem ext_count {s t : GateTally} (h : ∀ f, s.count f = t.count f) : s = t := by
  rcases s with ⟨cs⟩
  rcases t with ⟨ds⟩
  congr 1
  exact Vector.ext fun i hi => h ⟨⟨i, hi⟩⟩

theorem foldr_add_set (ns : List Nat) {i : Nat} (h : i < ns.length) :
    (ns.set i (ns[i] + 1)).foldr (· + ·) 0 = ns.foldr (· + ·) 0 + 1 := by
  induction ns generalizing i with
  | nil => exact absurd h (Nat.not_lt_zero i)
  | cons n rest ih =>
    cases i with
    | zero => simp; omega
    | succ i =>
      have hrest := ih (Nat.lt_of_succ_lt_succ h)
      simp only [List.set_cons_succ, List.getElem_cons_succ, List.foldr_cons, hrest]
      omega

theorem total_add (t : GateTally) (f : GateFunction) : (t.add f).total = t.total + 1 := by
  have hlen : f.code.val < t.counts.toList.length := by simp
  have hcount : t.count f = t.counts.toList[f.code.val] := by simp [count]
  rw [add, total, Vector.toList_set, hcount, foldr_add_set _ hlen, total]

/-- The tally of some functions. -/
def ofFunctions (fs : List GateFunction) : GateTally := fs.foldr (fun f t => t.add f) {}

theorem count_ofFunctions (fs : List GateFunction) (f : GateFunction) :
    (ofFunctions fs).count f = fs.count f := by
  induction fs with
  | nil => simp [ofFunctions, count]
  | cons g rest ih =>
    show ((ofFunctions rest).add g).count f = _
    rw [count_add, ih, List.count_cons]
    by_cases h : g = f <;> simp [h]

theorem total_ofFunctions (fs : List GateFunction) : (ofFunctions fs).total = fs.length := by
  induction fs with
  | nil => rfl
  | cons g rest ih =>
    show ((ofFunctions rest).add g).total = _
    rw [total_add, ih, List.length_cons]

/-- A tally that counts the functions of a list has as many gates as the list has entries. -/
theorem total_eq_length {t : GateTally} {fs : List GateFunction} (h : ∀ f, t.count f = fs.count f) :
    t.total = fs.length := by
  rw [ext_count fun f => (h f).trans (count_ofFunctions fs f).symm, total_ofFunctions]

end GateTally

end GateNet
