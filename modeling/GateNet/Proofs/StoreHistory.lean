import Mathlib.Data.List.Induction
import GateNet.Proofs.Sequence
import GateNet.Proofs.Store

/-!
A wire store as its history determines it. A step concerns the cell of one wire, so a wire is followed
through a history by itself: its first insertion opens a cell, later writes and flips change this cell,
and nothing opens another one or forgets that it was flipped. So the raw value of a wire is the one that
was written last, and its polarity is the one that it was registered with, turned once at most.
-/

namespace GateNet.WireStore

/-! ### Histories -/

/-- A step on a store. A wire is registered with a raw value and a polarity, which may have been flipped
before. -/
inductive Step where
  | insert (w : Nat) (value : Option Bool) (polarity : Polarity)
  | setValue (w : Nat) (value : Bool)
  | flip (w : Nat)
  | get (w : Nat)
  | polarity (w : Nat)
  | effective (w : Nat)
  | contains (w : Nat)
deriving DecidableEq

/-- What a step returns. -/
inductive Reply where
  | nothing
  | value (x : Option Bool)
  | inverted (b : Bool)
  | present (b : Bool)
deriving DecidableEq

/-- Take a step. -/
def Step.run (s : WireStore) : Step → Except WireError (Reply × WireStore)
  | .insert w v p => do return (.inverted p.inverted, ← s.insert w ⟨v, p⟩)
  | .setValue w x => do return (.nothing, ← s.setValue w x)
  | .flip w => do return (.nothing, ← s.flip w)
  | .get w => do return (.value (← s.cell w).value, s)
  | .polarity w => do return (.inverted (← s.cell w).polarity.inverted, s)
  | .effective w => do return (.value (← s.effective w), s)
  | .contains w => .ok (.present (s.contains w), s)

/-- The store after a step, also after one that fails. -/
def next (s : WireStore) (step : Step) : WireStore :=
  match step.run s with
  | .ok (_, t) => t
  | .error _ => s

/-- The store that a history leads to. -/
def replay (history : List Step) : WireStore := history.foldl next {}

variable {s : WireStore} {step : Step} {history before after : List Step} {w : Nat} {v : Option Bool}
  {p : Polarity} {c : Cell}

@[simp] theorem replay_concat (history : List Step) (step : Step) :
    replay (history ++ [step]) = next (replay history) step := by
  rw [replay, List.foldl_concat, ← replay]

/-! ### What a step does to one wire -/

/-- The cell that a step opens for a wire that has none. -/
def Step.opened? (w : Nat) : Step → Option Cell
  | .insert u v p => if u = w then some ⟨v, p⟩ else none
  | _ => none

/-- What a step makes of the cell of a wire. -/
def Step.act (w : Nat) : Step → Cell → Cell
  | .setValue u x, c => if u = w then { c with value := some x } else c
  | .flip u, c =>
    if u = w ∧ c.polarity.flipped = false then { c with polarity := ⟨!c.polarity.inverted, true⟩ } else c
  | _, c => c

theorem next_insert (s : WireStore) (w : Nat) (v : Option Bool) (p : Polarity) :
    next s (.insert w v p) = if s.contains w then s else s.put w ⟨v, p⟩ := by
  rw [next, Step.run, WireStore.insert]
  cases s.contains w <;> rfl

theorem next_setValue (s : WireStore) (w : Nat) (x : Bool) : next s (.setValue w x) = s.write w x := by
  rw [next, Step.run, setValue, cell, write]
  cases s.cells[w]? <;> rfl

theorem next_flip (s : WireStore) (w : Nat) :
    next s (.flip w) =
      match s.cells[w]? with
      | some c =>
        if c.polarity.flipped then s else s.put w { c with polarity := ⟨!c.polarity.inverted, true⟩ }
      | none => s := by
  rw [next, Step.run, flip, cell]
  cases s.cells[w]? with
  | none => rfl
  | some c =>
    simp only [Polarity.flip, bind, Except.bind]
    cases c.polarity.flipped <;> rfl

theorem next_get (s : WireStore) (w : Nat) : next s (.get w) = s := by
  rw [next, Step.run, cell]
  cases s.cells[w]? <;> rfl

theorem next_polarity (s : WireStore) (w : Nat) : next s (.polarity w) = s := by
  rw [next, Step.run, cell]
  cases s.cells[w]? <;> rfl

theorem next_effective (s : WireStore) (w : Nat) : next s (.effective w) = s := by
  rw [next, Step.run, effective, cell]
  cases s.cells[w]? <;> rfl

theorem next_contains (s : WireStore) (w : Nat) : next s (.contains w) = s := rfl

/-- A step that leaves every cell of a wire leaves the one that there is. -/
theorem map_act_of_fixed {s : WireStore} (step : Step) (h : ∀ c, step.act w c = c) :
    s.cells[w]?.map (step.act w) = s.cells[w]? := by
  rw [show step.act w = id from funext h, Option.map_id_fun, id]

/-- A step keeps the cell of a wire, as it changes it, or opens one for a wire that has none. -/
theorem cells_next (s : WireStore) (step : Step) (w : Nat) :
    (next s step).cells[w]? = (s.cells[w]?.map (step.act w)).or (step.opened? w) := by
  cases step with
  | insert u v p =>
    rw [map_act_of_fixed _ fun _ => rfl, next_insert, contains_eq_isSome]
    by_cases hu : u = w
    · subst hu
      cases h : s.cells[u]? <;> simp [h, getElem?_put, Step.opened?]
    · cases s.cells[u]? <;> simp [getElem?_put, hu, Step.opened?]
  | setValue u x =>
    rw [next_setValue, write]
    by_cases hu : u = w
    · subst hu
      cases h : s.cells[u]? <;> simp [h, getElem?_put, Step.act, Step.opened?]
    · rw [map_act_of_fixed (.setValue u x) fun _ => if_neg hu]
      cases s.cells[u]? <;> simp [getElem?_put, hu, Step.opened?]
  | flip u =>
    rw [next_flip]
    by_cases hu : u = w
    · subst hu
      cases h : s.cells[u]? with
      | none => simp [h, Step.opened?]
      | some c => cases hf : c.polarity.flipped <;> simp [h, hf, getElem?_put, Step.act]
    · rw [map_act_of_fixed (.flip u) fun _ => if_neg fun h => hu h.1]
      cases s.cells[u]? with
      | none => simp [Step.opened?]
      | some c => cases hf : c.polarity.flipped <;> simp [hf, hu, getElem?_put, Step.opened?]
  | get u =>
    rw [next_get, map_act_of_fixed _ fun _ => rfl]
    exact Option.or_none.symm
  | polarity u =>
    rw [next_polarity, map_act_of_fixed _ fun _ => rfl]
    exact Option.or_none.symm
  | effective u =>
    rw [next_effective, map_act_of_fixed _ fun _ => rfl]
    exact Option.or_none.symm
  | contains u =>
    rw [next_contains, map_act_of_fixed _ fun _ => rfl]
    exact Option.or_none.symm

/-! ### What a history does to one wire -/

/-- Some step of the history inserts the wire, with success or not. -/
def Inserted (history : List Step) (w : Nat) : Prop := ∃ v p, Step.insert w v p ∈ history

/-- The first step that inserts the wire does so with this value and polarity, and these steps follow. -/
def FirstInserted (history : List Step) (w : Nat) (v : Option Bool) (p : Polarity)
    (after : List Step) : Prop :=
  ∃ before, history = before ++ .insert w v p :: after ∧ ¬ Inserted before w

/-- The raw value that a step writes to a wire. -/
def Step.written? (w : Nat) : Step → Option Bool
  | .setValue u x => if u = w then some x else none
  | _ => none

/-- The raw value of a wire after some steps: the last that was written, or the one before the steps. -/
def rawAfter (w : Nat) (v : Option Bool) (after : List Step) : Option Bool :=
  (after.filterMap (Step.written? w)).getLast?.or v

/-- The polarity of a wire after some steps: turned if one of them flips it, and it was not flipped. -/
def polarityAfter (w : Nat) (p : Polarity) (after : List Step) : Polarity :=
  if p.flipped = false ∧ .flip w ∈ after then ⟨!p.inverted, true⟩ else p

theorem rawAfter_concat (w : Nat) (v : Option Bool) (after : List Step) (step : Step) :
    rawAfter w v (after ++ [step]) = (step.written? w).or (rawAfter w v after) := by
  rw [rawAfter, rawAfter, List.filterMap_append]
  cases h : step.written? w <;> simp [h]

theorem flipped_polarityAfter (w : Nat) (p : Polarity) (after : List Step) :
    (polarityAfter w p after).flipped = (p.flipped || decide (.flip w ∈ after)) := by
  rw [polarityAfter]
  cases hp : p.flipped <;> by_cases hf : Step.flip w ∈ after <;> simp [hp, hf]

theorem inverted_polarityAfter (w : Nat) (p : Polarity) (after : List Step) :
    (polarityAfter w p after).inverted =
      (p.inverted ^^ (!p.flipped && decide (.flip w ∈ after))) := by
  rw [polarityAfter]
  cases hp : p.flipped <;> by_cases hf : Step.flip w ∈ after <;> simp [hf]

/-- One more step flips the wire, or leaves its polarity. -/
theorem polarityAfter_concat (w : Nat) (p : Polarity) (after : List Step) (step : Step) :
    polarityAfter w p (after ++ [step]) =
      if step = .flip w ∧ (polarityAfter w p after).flipped = false then
        ⟨!(polarityAfter w p after).inverted, true⟩
      else polarityAfter w p after := by
  rw [flipped_polarityAfter]
  simp only [polarityAfter, List.mem_append, List.mem_singleton]
  cases hp : p.flipped <;> by_cases hf : Step.flip w ∈ after <;> by_cases hs : step = .flip w <;>
    simp [hf, hs, eq_comm]

/-- A step acts on the cell of a wire as the history says that it goes on. -/
theorem act_after (w : Nat) (v : Option Bool) (p : Polarity) (after : List Step) (step : Step) :
    step.act w ⟨rawAfter w v after, polarityAfter w p after⟩ =
      ⟨rawAfter w v (after ++ [step]), polarityAfter w p (after ++ [step])⟩ := by
  rw [rawAfter_concat, polarityAfter_concat]
  cases step with
  | setValue u x => by_cases hu : u = w <;> simp [Step.act, Step.written?, hu]
  | flip u => by_cases hu : u = w <;> cases hf : (polarityAfter w p after).flipped <;>
      simp [Step.act, Step.written?, hu, hf]
  | insert u v p => simp [Step.act, Step.written?]
  | get u => simp [Step.act, Step.written?]
  | polarity u => simp [Step.act, Step.written?]
  | effective u => simp [Step.act, Step.written?]
  | contains u => simp [Step.act, Step.written?]

theorem inserted_concat :
    Inserted (history ++ [step]) w ↔ Inserted history w ∨ ∃ v p, step = .insert w v p := by
  simp only [Inserted, List.mem_append, List.mem_singleton, exists_or, eq_comm]

theorem opened?_eq_none (h : ∀ v p, step ≠ .insert w v p) : step.opened? w = none := by
  cases step with
  | insert u v p =>
    refine if_neg fun hu => ?_
    subst hu
    exact h v p rfl
  | _ => rfl

/-- A wire that was never inserted has no cell. -/
theorem cells_of_not_inserted (h : ¬ Inserted history w) : (replay history).cells[w]? = none := by
  induction history using List.reverseRecOn with
  | nil => rfl
  | append_singleton history step ih =>
    rw [inserted_concat, not_or] at h
    rw [replay_concat, cells_next, ih h.1, opened?_eq_none fun v p hs => h.2 ⟨v, p, hs⟩]
    rfl

/-- The cell of a wire is the one that its first insertion opened, as the steps since then changed it. -/
theorem cells_of_firstInserted (h : FirstInserted history w v p after) :
    (replay history).cells[w]? = some ⟨rawAfter w v after, polarityAfter w p after⟩ := by
  obtain ⟨before, rfl, hbefore⟩ := h
  induction after using List.reverseRecOn with
  | nil =>
    rw [replay_concat, cells_next, cells_of_not_inserted hbefore]
    simp [Step.opened?, rawAfter, polarityAfter]
  | append_singleton after step ih =>
    rw [← List.cons_append, ← List.append_assoc, replay_concat, cells_next, ih, Option.map_some,
      act_after]
    rfl

theorem exists_firstInserted (h : Inserted history w) : ∃ v p after, FirstInserted history w v p after := by
  induction history using List.reverseRecOn with
  | nil =>
    obtain ⟨v, p, hmem⟩ := h
    cases hmem
  | append_singleton history step ih =>
    by_cases hold : Inserted history w
    · obtain ⟨v, p, after, before, rfl, hbefore⟩ := ih hold
      exact ⟨v, p, after ++ [step], before, by simp, hbefore⟩
    · obtain ⟨v, p, rfl⟩ := (inserted_concat.mp h).resolve_left hold
      exact ⟨v, p, [], history, rfl, hold⟩

theorem contains_replay_iff : (replay history).contains w = true ↔ Inserted history w := by
  constructor
  · intro hw
    by_contra hnot
    rw [contains_eq_isSome, cells_of_not_inserted hnot] at hw
    cases hw
  · intro h
    obtain ⟨v, p, after, hfirst⟩ := exists_firstInserted h
    exact contains_iff.mpr ⟨_, cells_of_firstInserted hfirst⟩

/-! ### What steps return -/

/-- The step is taken without an error. -/
def Succeeds (s : WireStore) (step : Step) : Prop := ∃ r t, step.run s = .ok (r, t)

/-- The step needs the wire to be registered. -/
def Step.Needs (w : Nat) (step : Step) : Prop :=
  (∃ x, step = .setValue w x) ∨ step = .flip w ∨ step = .get w ∨ step = .polarity w ∨
    step = .effective w

theorem run_insert_of_contains (h : s.contains w = true) :
    (Step.insert w v p).run s = .error (.alreadyExists w) := by
  rw [Step.run, WireStore.insert, if_pos h]
  rfl

theorem run_insert_of_not_contains (h : s.contains w = false) :
    (Step.insert w v p).run s = .ok (.inverted p.inverted, s.put w ⟨v, p⟩) := by
  rw [Step.run, WireStore.insert, h]
  rfl

theorem run_of_none (h : s.cells[w]? = none) (hstep : step.Needs w) :
    step.run s = .error (.notFound w) := by
  have hcell : s.cell w = .error (.notFound w) := by rw [cell, h]
  rcases hstep with ⟨x, rfl⟩ | rfl | rfl | rfl | rfl
  · rw [Step.run, setValue, hcell]
    rfl
  · rw [Step.run, flip, hcell]
    rfl
  · rw [Step.run, hcell]
    rfl
  · rw [Step.run, hcell]
    rfl
  · rw [Step.run, effective, hcell]
    rfl

section Registered

variable (h : s.cells[w]? = some c)

include h

theorem run_setValue (x : Bool) :
    (Step.setValue w x).run s = .ok (.nothing, s.put w { c with value := some x }) := by
  rw [Step.run, setValue, cell, h]
  rfl

theorem polarity?_eq : s.polarity? w = some c.polarity := by rw [polarity?, h, Option.map_some]

theorem run_flip_of_flipped (hf : c.polarity.flipped = true) :
    (Step.flip w).run s = .error (.doubleInversion w) := by
  rw [Step.run, flip_error (polarity?_eq h) hf]
  rfl

theorem run_flip (hf : c.polarity.flipped = false) :
    (Step.flip w).run s = .ok (.nothing, s.turn w ⟨!c.polarity.inverted, true⟩) := by
  rw [Step.run, (flip_ok_iff (polarity?_eq h)).mpr ⟨hf, rfl⟩]
  rfl

theorem run_get : (Step.get w).run s = .ok (.value c.value, s) := by
  rw [Step.run, cell, h]
  rfl

theorem run_polarity : (Step.polarity w).run s = .ok (.inverted c.polarity.inverted, s) := by
  rw [Step.run, cell, h]
  rfl

theorem run_effective :
    (Step.effective w).run s = .ok (.value (c.value.map (· ^^ c.polarity.inverted)), s) := by
  rw [Step.run, effective, cell, h]
  rfl

end Registered

/-! ### The whole store -/

theorem entries_sorted (s : WireStore) : (s.entries.map Prod.fst).Pairwise (· < ·) := by
  rw [List.pairwise_map]
  exact Std.ExtTreeMap.ordered_keys_toList.imp Nat.compare_eq_lt.mp

theorem mem_entries_iff : w ∈ s.entries.map Prod.fst ↔ s.contains w = true := by
  rw [contains_iff, List.mem_map]
  constructor
  · rintro ⟨⟨u, c⟩, hmem, rfl⟩
    exact ⟨c, Std.ExtTreeMap.mem_toList_iff_getElem?_eq_some.mp hmem⟩
  · rintro ⟨c, hc⟩
    exact ⟨(w, c), Std.ExtTreeMap.mem_toList_iff_getElem?_eq_some.mpr hc, rfl⟩

/-- What a history says of the store that it leads to, and of the step that is taken next. -/
structure FollowsHistory (history : List Step) : Prop where
  /-- A wire is registered if an insertion of it succeeded. -/
  contains_iff : ∀ w, (replay history).contains w = true ↔
    ∃ before v p after, history = before ++ .insert w v p :: after ∧
      Succeeds (replay before) (.insert w v p)
  /-- The first insertion of a wire succeeds, and no other. -/
  insert_iff : ∀ w v p, Succeeds (replay history) (.insert w v p) ↔ ¬ Inserted history w
  insert_again : ∀ w v p, Inserted history w →
    (Step.insert w v p).run (replay history) = .error (.alreadyExists w)
  unregistered : ∀ (w : Nat) (step : Step), ¬ Inserted history w → step.Needs w →
    step.run (replay history) = .error (.notFound w)
  setValue : ∀ w x, Inserted history w → Succeeds (replay history) (.setValue w x)
  /-- The raw value is the last that was written since the first insertion, or the one inserted. -/
  get : ∀ w v p after, FirstInserted history w v p after →
    (Step.get w).run (replay history) = .ok (.value (rawAfter w v after), replay history)
  /-- The polarity is the one inserted, turned if there was a flip since then. -/
  polarity : ∀ w v p after, FirstInserted history w v p after →
    (Step.polarity w).run (replay history) =
      .ok (.inverted (p.inverted ^^ (!p.flipped && decide (.flip w ∈ after))), replay history)
  /-- Readers see the raw value under the polarity. -/
  effective : ∀ w v p after, FirstInserted history w v p after →
    (Step.effective w).run (replay history) =
      .ok (.value ((rawAfter w v after).map
        (· ^^ (p.inverted ^^ (!p.flipped && decide (.flip w ∈ after))))), replay history)
  /-- The first flip since the insertion succeeds, and no other; but no flip of a wire does that was
  inserted with a flipped polarity. -/
  flip_iff : ∀ w v p after, FirstInserted history w v p after →
    (Succeeds (replay history) (.flip w) ↔ p.flipped = false ∧ .flip w ∉ after)
  flip_again : ∀ w v p after, FirstInserted history w v p after → p.flipped = true ∨ .flip w ∈ after →
    (Step.flip w).run (replay history) = .error (.doubleInversion w)
  /-- Asking for a wire says whether it is registered. -/
  contains : ∀ w, (Step.contains w).run (replay history) =
    .ok (.present ((replay history).contains w), replay history)
  failed : ∀ (step : Step) e, step.run (replay history) = .error e →
    next (replay history) step = replay history
  ascending : ((replay history).entries.map Prod.fst).Pairwise (· < ·)
  listed : ∀ w, w ∈ (replay history).entries.map Prod.fst ↔ (replay history).contains w = true
  size : (replay history).size = (replay history).entries.length

theorem succeeds_insert_iff : Succeeds (replay history) (.insert w v p) ↔ ¬ Inserted history w := by
  rw [← contains_replay_iff]
  constructor
  · rintro ⟨r, t, h⟩ hw
    rw [run_insert_of_contains hw] at h
    cases h
  · intro hw
    exact ⟨_, _, run_insert_of_not_contains (Bool.eq_false_iff.mpr hw)⟩

theorem succeeds_flip_iff (h : FirstInserted history w v p after) :
    Succeeds (replay history) (.flip w) ↔ p.flipped = false ∧ .flip w ∉ after := by
  have hcell := cells_of_firstInserted h
  have hflipped := flipped_polarityAfter w p after
  cases hf : (polarityAfter w p after).flipped with
  | true =>
    rw [hf, eq_comm, Bool.or_eq_true, decide_eq_true_eq] at hflipped
    constructor
    · rintro ⟨r, t, hrun⟩
      rw [run_flip_of_flipped hcell hf] at hrun
      cases hrun
    · rintro ⟨hp, hnot⟩
      rw [hp] at hflipped
      exact absurd (hflipped.resolve_left Bool.false_ne_true) hnot
  | false =>
    rw [hf, eq_comm, Bool.or_eq_false_iff, decide_eq_false_iff_not] at hflipped
    exact ⟨fun _ => hflipped, fun _ => ⟨_, _, run_flip hcell hf⟩⟩

theorem run_flip_again (h : FirstInserted history w v p after)
    (hf : p.flipped = true ∨ .flip w ∈ after) :
    (Step.flip w).run (replay history) = .error (.doubleInversion w) := by
  refine run_flip_of_flipped (cells_of_firstInserted h) ?_
  rw [flipped_polarityAfter, Bool.or_eq_true, decide_eq_true_eq]
  exact hf

/-- The store is a map of wires that follows its history. A wire is registered by the first step that
inserts it, holds the value that was written last, and turns with the first flip; all other steps leave
the wire, and steps that fail leave the store. The wires are listed once each, in ascending order. -/
theorem replay_followsHistory (history : List Step) : FollowsHistory history where
  contains_iff w := by
    rw [contains_replay_iff]
    constructor
    · intro h
      obtain ⟨v, p, after, before, hsplit, hbefore⟩ := exists_firstInserted h
      exact ⟨before, v, p, after, hsplit, succeeds_insert_iff.mpr hbefore⟩
    · rintro ⟨before, v, p, after, rfl, -⟩
      exact ⟨v, p, by simp⟩
  insert_iff w v p := succeeds_insert_iff
  insert_again w v p h := run_insert_of_contains (contains_replay_iff.mpr h)
  unregistered w step h hstep := run_of_none (cells_of_not_inserted h) hstep
  setValue w x h := by
    obtain ⟨v, p, after, hfirst⟩ := exists_firstInserted h
    exact ⟨_, _, run_setValue (cells_of_firstInserted hfirst) x⟩
  get w v p after h := run_get (cells_of_firstInserted h)
  polarity w v p after h := by
    rw [run_polarity (cells_of_firstInserted h), inverted_polarityAfter]
  effective w v p after h := by
    rw [run_effective (cells_of_firstInserted h), inverted_polarityAfter]
  flip_iff w v p after h := succeeds_flip_iff h
  flip_again w v p after h hf := run_flip_again h hf
  contains w := rfl
  failed step e h := by rw [next, h]
  ascending := entries_sorted _
  listed w := mem_entries_iff
  size := Std.ExtTreeMap.length_toList.symm

/-- A wire that is inserted twice and flipped twice. -/
example : (replay [.insert 4 none ⟨false, false⟩, .insert 1 (some true) ⟨true, false⟩, .setValue 4 true,
      .insert 4 (some false) ⟨true, false⟩, .flip 4, .flip 4]).entries =
    [(1, ⟨some true, ⟨true, false⟩⟩), (4, ⟨some true, ⟨true, true⟩⟩)] := rfl

end GateNet.WireStore
