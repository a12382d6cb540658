import Mathlib.Data.Option.NAry
import GateNet.Circuit.Evaluation
import GateNet.Proofs.Sequence
import GateNet.Proofs.Store

/-!
One pass over gates. Gates are listed by ascending output and read nothing that they or later gates
drive. So a pass meets every wire that a gate reads in its final state: the store it ends in satisfies
every gate, and it depends on the wires that no gate drives alone.
-/

namespace GateNet.Circuit

/-- The gates are listed by ascending output, and a gate that reads another comes after it. -/
structure Ascending (gs : List Gate) : Prop where
  sorted : gs.Pairwise (·.out < ·.out)
  reads : ∀ g ∈ gs, ∀ h ∈ gs, h.out = g.a ∨ h.out = g.b → h.out < g.out

namespace Ascending

variable {g : Gate} {gs : List Gate}

theorem tail (h : Ascending (g :: gs)) : Ascending gs where
  sorted := (List.pairwise_cons.mp h.sorted).2
  reads k hk l hl := h.reads k (List.mem_cons_of_mem g hk) l (List.mem_cons_of_mem g hl)

/-- The first gate reads no wire that a gate of the list drives. -/
theorem head_reads (h : Ascending (g :: gs)) : ∀ k ∈ g :: gs, k.out ≠ g.a ∧ k.out ≠ g.b := by
  intro k hk
  have hle : g.out ≤ k.out := by
    rcases List.mem_cons.mp hk with rfl | hk
    · exact Nat.le_refl _
    · exact Nat.le_of_lt ((List.pairwise_cons.mp h.sorted).1 k hk)
  constructor
  · intro ha
    exact absurd (h.reads g (List.mem_cons_self ..) k hk (.inl ha)) (Nat.not_lt.mpr hle)
  · intro hb
    exact absurd (h.reads g (List.mem_cons_self ..) k hk (.inr hb)) (Nat.not_lt.mpr hle)

/-- No later gate drives what the first one drives. -/
theorem head_out (h : Ascending (g :: gs)) : ∀ k ∈ gs, k.out ≠ g.out :=
  fun k hk => Nat.ne_of_gt ((List.pairwise_cons.mp h.sorted).1 k hk)

end Ascending

/-! ### One gate -/

variable {s t : WireStore} {g : Gate} {gs : List Gate}

theorem readOperand_eq (s : WireStore) (g : Gate) (w : Nat) :
    readOperand s g w =
      if s.contains w then
        match s.seen? w with
        | some x => .ok x
        | none => .error (.unassignedInput g.out w)
      else .error (.wire (.notFound w)) := by
  rw [readOperand, WireStore.effective_eq]
  cases s.contains w <;> cases s.seen? w <;> rfl

theorem readOperand_ok_iff {w : Nat} {x : Bool} :
    readOperand s g w = .ok x ↔ s.seen? w = some x := by
  rw [readOperand_eq]
  constructor
  · intro h
    split at h
    · cases hx : s.seen? w <;> simp_all
    · simp at h
  · intro h
    rw [if_pos (WireStore.contains_of_seen? h), h]

/-- What a gate reads on a wire is decided by the wire's raw value and polarity. -/
theorem readOperand_congr {w : Nat} (hr : s.raw? w = t.raw? w)
    (hp : s.polarity? w = t.polarity? w) : readOperand s g w = readOperand t g w := by
  rw [readOperand_eq, readOperand_eq, WireStore.contains_eq, WireStore.contains_eq,
    WireStore.seen?_congr hr hp, hp]

theorem evaluateGate_ok_iff :
    evaluateGate s g = .ok t ↔
      ∃ a b, s.seen? g.a = some a ∧ s.seen? g.b = some b ∧ s.contains g.out = true ∧
        t = s.write g.out (g.eval a b) := by
  simp only [evaluateGate, bind_ok_iff, readOperand_ok_iff, mapError_ok_iff,
    WireStore.setValue_ok_iff]
  constructor
  · rintro ⟨a, ha, b, hb, hc, ht⟩
    exact ⟨a, b, ha, hb, hc, ht⟩
  · rintro ⟨a, b, ha, hb, hc, ht⟩
    exact ⟨a, ha, b, hb, hc, ht⟩

/-- Between registered wires, a gate fails at the first wire without a value that it reads. -/
theorem evaluateGate_error {e : Cause} (ha : s.contains g.a = true) (hb : s.contains g.b = true)
    (hout : s.contains g.out = true) (h : evaluateGate s g = .error e) :
    ∃ w, e = .unassignedInput g.out w ∧ s.seen? w = none ∧
      (w = g.a ∨ w = g.b ∧ s.seen? g.a ≠ none) := by
  rw [evaluateGate, readOperand_eq, readOperand_eq, if_pos ha, if_pos hb] at h
  cases hxa : s.seen? g.a with
  | none =>
    simp only [hxa] at h
    cases h
    exact ⟨g.a, rfl, hxa, .inl rfl⟩
  | some a =>
    cases hxb : s.seen? g.b with
    | none =>
      simp only [hxa, hxb] at h
      cases h
      exact ⟨g.b, rfl, hxb, .inr ⟨rfl, Option.some_ne_none a⟩⟩
    | some b =>
      have hwrite : s.setValue g.out (g.eval a b) = .ok (s.write g.out (g.eval a b)) :=
        WireStore.setValue_ok_iff.mpr ⟨hout, rfl⟩
      simp only [hxa, hxb, bind, Except.bind, hwrite] at h
      cases h

/-- In stores with the same polarities and the same values on what the gate reads, the gate fails
alike or writes the same. -/
theorem evaluateGate_congr (hp : ∀ w, s.polarity? w = t.polarity? w)
    (ha : s.raw? g.a = t.raw? g.a) (hb : s.raw? g.b = t.raw? g.b) :
    (∃ e, evaluateGate s g = .error e ∧ evaluateGate t g = .error e) ∨
      ∃ x, s.contains g.out = true ∧ evaluateGate s g = .ok (s.write g.out x) ∧
        evaluateGate t g = .ok (t.write g.out x) := by
  have hc : s.contains g.out = t.contains g.out := by
    rw [WireStore.contains_eq, WireStore.contains_eq, hp]
  rw [evaluateGate, evaluateGate, ← readOperand_congr ha (hp g.a), ← readOperand_congr hb (hp g.b)]
  cases ha : readOperand s g g.a with
  | error e => exact .inl ⟨e, rfl, rfl⟩
  | ok a =>
    cases hb : readOperand s g g.b with
    | error e => exact .inl ⟨e, rfl, rfl⟩
    | ok b =>
      simp only [bind, Except.bind, WireStore.setValue_eq, ← hc]
      cases s.contains g.out with
      | true => exact .inr ⟨g.eval a b, rfl, rfl, rfl⟩
      | false => exact .inl ⟨_, rfl, rfl⟩

/-! ### A pass over the gates -/

/-- No gate of the list drives the wire. -/
def NotDriven (gs : List Gate) (w : Nat) : Prop := ∀ g ∈ gs, g.out ≠ w

theorem polarity?_pass (s : WireStore) (gs : List Gate) (w : Nat) :
    (runSteps evaluateGate s gs).state.polarity? w = s.polarity? w := by
  induction gs generalizing s with
  | nil => rfl
  | cons g rest ih =>
    cases h : evaluateGate s g with
    | error e => rw [runSteps_cons_error h]
    | ok s' =>
      obtain ⟨a, b, -, -, -, rfl⟩ := evaluateGate_ok_iff.mp h
      rw [runSteps_cons_ok h, ih, WireStore.polarity?_write]

/-- A pass writes driven wires only. -/
theorem raw?_pass {w : Nat} (hw : NotDriven gs w) :
    (runSteps evaluateGate s gs).state.raw? w = s.raw? w := by
  induction gs generalizing s with
  | nil => rfl
  | cons g rest ih =>
    cases h : evaluateGate s g with
    | error e => rw [runSteps_cons_error h]
    | ok s' =>
      obtain ⟨a, b, -, -, -, rfl⟩ := evaluateGate_ok_iff.mp h
      rw [runSteps_cons_ok h, ih fun k hk => hw k (List.mem_cons_of_mem g hk)]
      exact WireStore.raw?_write_of_ne (hw g (List.mem_cons_self ..)) _

theorem seen?_pass {w : Nat} (hw : NotDriven gs w) :
    (runSteps evaluateGate s gs).state.seen? w = s.seen? w :=
  WireStore.seen?_congr (raw?_pass hw) (polarity?_pass s gs w)

/-- A pass that reaches its end leaves every gate satisfied, with known operands. -/
theorem pass_satisfies (asc : Ascending gs) (h : runSteps evaluateGate s gs = ⟨t, none⟩) :
    ∀ g ∈ gs, ∃ a b, t.seen? g.a = some a ∧ t.seen? g.b = some b ∧
      t.raw? g.out = some (g.eval a b) := by
  induction gs generalizing s with
  | nil => simp
  | cons g rest ih =>
    obtain ⟨s', hg, h⟩ := runSteps_cons_done_iff.mp h
    intro k hk
    rcases List.mem_cons.mp hk with rfl | hk
    · -- the rest of the pass touches neither the operands nor the output of the first gate
      obtain ⟨a, b, ha, hb, hc, rfl⟩ := evaluateGate_ok_iff.mp hg
      have hout := asc.head_reads k (List.mem_cons_self ..)
      have hrest : t = (runSteps evaluateGate (s.write k.out (k.eval a b)) rest).state := by
        rw [h]
      have hka : NotDriven rest k.a := fun l hl =>
        (asc.head_reads l (List.mem_cons_of_mem k hl)).1
      have hkb : NotDriven rest k.b := fun l hl =>
        (asc.head_reads l (List.mem_cons_of_mem k hl)).2
      refine ⟨a, b, ?_, ?_, ?_⟩
      · rw [hrest, seen?_pass hka, WireStore.seen?_write_of_ne hout.1, ha]
      · rw [hrest, seen?_pass hkb, WireStore.seen?_write_of_ne hout.2, hb]
      · rw [hrest, raw?_pass asc.head_out, WireStore.raw?_write_self hc]
    · exact ih asc.tail h k hk

/-- Two stores that agree except on driven wires end the pass alike: with one failure, or in one
store. -/
theorem pass_agrees (asc : Ascending gs) (hp : ∀ w, s.polarity? w = t.polarity? w)
    (hr : ∀ w, NotDriven gs w → s.raw? w = t.raw? w) :
    (runSteps evaluateGate s gs).failure = (runSteps evaluateGate t gs).failure ∧
      ((runSteps evaluateGate s gs).failure = none →
        (runSteps evaluateGate s gs).state = (runSteps evaluateGate t gs).state) := by
  induction gs generalizing s t with
  | nil => exact ⟨rfl, fun _ => WireStore.ext_views (fun w => hr w (by simp [NotDriven])) hp⟩
  | cons g rest ih =>
    have ha : s.raw? g.a = t.raw? g.a := hr g.a fun k hk => (asc.head_reads k hk).1
    have hb : s.raw? g.b = t.raw? g.b := hr g.b fun k hk => (asc.head_reads k hk).2
    rcases evaluateGate_congr hp ha hb with ⟨e, hs, ht⟩ | ⟨x, hc, hs, ht⟩
    · rw [runSteps_cons_error hs, runSteps_cons_error ht]
      exact ⟨rfl, fun h => by simp at h⟩
    · rw [runSteps_cons_ok hs, runSteps_cons_ok ht]
      refine ih asc.tail (by simpa using hp) fun w hw => ?_
      by_cases hout : g.out = w
      · -- the gate's own output is now the same in both
        have hc' : t.contains g.out = true := by
          rw [WireStore.contains_eq, ← hp, ← WireStore.contains_eq, hc]
        rw [← hout, WireStore.raw?_write_self hc, WireStore.raw?_write_self hc']
      · rw [WireStore.raw?_write_of_ne hout, WireStore.raw?_write_of_ne hout]
        refine hr w fun k hk => ?_
        rcases List.mem_cons.mp hk with rfl | hk
        · exact hout
        · exact hw k hk

/-- From the values of the wires that no gate drives, a pass reaches every value of a store in which
all gates are satisfied, if what the gates read has the same polarity in both. -/
theorem pass_reaches (asc : Ascending gs)
    (hsat : ∀ g ∈ gs, ∃ a b, t.seen? g.a = some a ∧ t.seen? g.b = some b ∧
      t.raw? g.out = some (g.eval a b))
    (hpol : ∀ g ∈ gs, ∀ w, w = g.a ∨ w = g.b →
      (s.polarity? w).map (·.inverted) = (t.polarity? w).map (·.inverted))
    (hout : ∀ g ∈ gs, s.contains g.out = true)
    (hraw : ∀ w, NotDriven gs w → s.raw? w = t.raw? w) :
    ∃ e, runSteps evaluateGate s gs = ⟨e, none⟩ ∧ ∀ w, e.raw? w = t.raw? w := by
  induction gs generalizing s with
  | nil => exact ⟨s, rfl, fun w => hraw w (by simp [NotDriven])⟩
  | cons g rest ih =>
    have hg : g ∈ g :: rest := List.mem_cons_self ..
    obtain ⟨a, b, ha, hb, hval⟩ := hsat g hg
    have hsa : s.seen? g.a = some a := ha ▸ WireStore.seen?_congr_inverted
      (hraw g.a fun k hk => (asc.head_reads k hk).1) (hpol g hg g.a (.inl rfl))
    have hsb : s.seen? g.b = some b := hb ▸ WireStore.seen?_congr_inverted
      (hraw g.b fun k hk => (asc.head_reads k hk).2) (hpol g hg g.b (.inr rfl))
    rw [runSteps_cons_ok (evaluateGate_ok_iff.mpr ⟨a, b, hsa, hsb, hout g hg, rfl⟩)]
    refine ih asc.tail (fun k hk => hsat k (List.mem_cons_of_mem g hk)) (fun k hk w hw => ?_)
      (fun k hk => ?_) fun w hw => ?_
    · rw [WireStore.polarity?_write]
      exact hpol k (List.mem_cons_of_mem g hk) w hw
    · rw [WireStore.contains_write]
      exact hout k (List.mem_cons_of_mem g hk)
    · by_cases he : g.out = w
      · rw [← he, WireStore.raw?_write_self (hout g hg), hval]
      · rw [WireStore.raw?_write_of_ne he]
        refine hraw w fun k hk => ?_
        rcases List.mem_cons.mp hk with rfl | hk
        · exact he
        · exact hw k hk

/-- A store that satisfies the gates, known operands or not, is left as it is. -/
theorem pass_fixed
    (hs : ∀ g ∈ gs, s.raw? g.out = Option.map₂ g.eval (s.seen? g.a) (s.seen? g.b)) :
    (runSteps evaluateGate s gs).state = s := by
  induction gs with
  | nil => rfl
  | cons g rest ih =>
    cases hg : evaluateGate s g with
    | error e => rw [runSteps_cons_error hg]
    | ok s' =>
      obtain ⟨a, b, ha, hb, -, rfl⟩ := evaluateGate_ok_iff.mp hg
      have hsame : s.write g.out (g.eval a b) = s := by
        apply WireStore.write_of_raw?
        rw [hs g (List.mem_cons_self ..), ha, hb]
        rfl
      rw [runSteps_cons_ok hg, hsame]
      exact ih fun k hk => hs k (List.mem_cons_of_mem g hk)

/-! ### Complements -/

/-- The store after a wire follows the wire that it is the complement of. -/
def follow (s : WireStore) (pair : Nat × Nat) : WireStore :=
  match s.seen? pair.1 with
  | some x => s.write pair.2 !x
  | none => s

/-- Each wire is the complement of one at most, and no complement is followed itself. -/
structure Apart (pairs : List (Nat × Nat)) : Prop where
  distinct : (pairs.map Prod.snd).Nodup
  unfollowed : ∀ p ∈ pairs, ∀ q ∈ pairs, p.2 ≠ q.1

theorem Apart.tail {pair : Nat × Nat} {pairs : List (Nat × Nat)} (h : Apart (pair :: pairs)) :
    Apart pairs where
  distinct := (List.nodup_cons.mp h.distinct).2
  unfollowed p hp q hq :=
    h.unfollowed p (List.mem_cons_of_mem pair hp) q (List.mem_cons_of_mem pair hq)

theorem refreshComplement_ok_iff {pair : Nat × Nat} :
    refreshComplement s pair = .ok t ↔
      s.contains pair.1 = true ∧ ((s.seen? pair.1).isSome → s.contains pair.2 = true) ∧
        t = follow s pair := by
  rw [refreshComplement, bind_ok_iff, follow]
  simp only [mapError_ok_iff, WireStore.effective_ok_iff]
  cases hx : s.seen? pair.1 with
  | none =>
    constructor
    · rintro ⟨x, ⟨hc, rfl⟩, h⟩
      exact ⟨hc, fun hn => by simp at hn, (pure_ok_iff.mp h).symm⟩
    · rintro ⟨hc, -, rfl⟩
      exact ⟨none, ⟨hc, rfl⟩, rfl⟩
  | some x =>
    constructor
    · rintro ⟨y, ⟨hc, rfl⟩, h⟩
      obtain ⟨hc', ht⟩ := WireStore.setValue_ok_iff.mp (mapError_ok_iff.mp h)
      exact ⟨hc, fun _ => hc', ht⟩
    · rintro ⟨hc, hc', ht⟩
      exact ⟨some x, ⟨hc, rfl⟩, mapError_ok_iff.mpr (WireStore.setValue_ok_iff.mpr ⟨hc' rfl, ht⟩)⟩

variable {pairs : List (Nat × Nat)}

@[simp] theorem polarity?_follow (s : WireStore) (pair : Nat × Nat) (w : Nat) :
    (follow s pair).polarity? w = s.polarity? w := by
  unfold follow
  split
  · exact WireStore.polarity?_write ..
  · rfl

theorem raw?_follow_of_ne {pair : Nat × Nat} {w : Nat} (h : pair.2 ≠ w) :
    (follow s pair).raw? w = s.raw? w := by
  unfold follow
  split
  · exact WireStore.raw?_write_of_ne h _
  · rfl

theorem polarity?_refresh (s : WireStore) (pairs : List (Nat × Nat)) (w : Nat) :
    (pairs.foldl follow s).polarity? w = s.polarity? w := by
  induction pairs generalizing s with
  | nil => rfl
  | cons pair rest ih => rw [List.foldl_cons, ih, polarity?_follow]

theorem raw?_refresh_of_ne {w : Nat} (h : ∀ p ∈ pairs, p.2 ≠ w) :
    (pairs.foldl follow s).raw? w = s.raw? w := by
  induction pairs generalizing s with
  | nil => rfl
  | cons pair rest ih =>
    rw [List.foldl_cons, ih fun p hp => h p (List.mem_cons_of_mem pair hp)]
    exact raw?_follow_of_ne (h pair (List.mem_cons_self ..))

/-- The complement of a known wire ends opposite to it, and that of an unknown one as it was. -/
theorem raw?_refresh (apart : Apart pairs) (hc : ∀ p ∈ pairs, s.contains p.2 = true) :
    ∀ p ∈ pairs, (pairs.foldl follow s).raw? p.2 =
      ((s.seen? p.1).map (!·)).or (s.raw? p.2) := by
  induction pairs generalizing s with
  | nil => simp
  | cons pair rest ih =>
    intro p hp
    rw [List.foldl_cons]
    rcases List.mem_cons.mp hp with rfl | hp
    · -- the complements that follow are other wires
      have hne : ∀ q ∈ rest, q.2 ≠ p.2 := fun q hq he =>
        (List.nodup_cons.mp apart.distinct).1 (he ▸ List.mem_map_of_mem hq)
      rw [raw?_refresh_of_ne hne, follow]
      cases hx : s.seen? p.1 with
      | none => rfl
      | some x => exact WireStore.raw?_write_self (hc p (List.mem_cons_self ..)) _
    · have hne : pair.2 ≠ p.2 := fun he =>
        (List.nodup_cons.mp apart.distinct).1 (he ▸ List.mem_map_of_mem hp)
      have hne' : pair.2 ≠ p.1 :=
        apart.unfollowed pair (List.mem_cons_self ..) p (List.mem_cons_of_mem pair hp)
      have hseen : (follow s pair).seen? p.1 = s.seen? p.1 :=
        WireStore.seen?_congr (raw?_follow_of_ne hne') (polarity?_follow ..)
      have hc' : ∀ q ∈ rest, (follow s pair).contains q.2 = true := fun q hq => by
        rw [WireStore.contains_eq, polarity?_follow, ← WireStore.contains_eq]
        exact hc q (List.mem_cons_of_mem pair hq)
      rw [ih apart.tail hc' p hp, hseen, raw?_follow_of_ne hne]

/-- Where all wires are registered, every complement is brought up to date. -/
theorem run_refresh (h : ∀ p ∈ pairs, s.contains p.1 = true ∧ s.contains p.2 = true) :
    runSteps refreshComplement s pairs = ⟨pairs.foldl follow s, none⟩ := by
  induction pairs generalizing s with
  | nil => rfl
  | cons pair rest ih =>
    obtain ⟨h₁, h₂⟩ := h pair (List.mem_cons_self ..)
    rw [runSteps_cons_ok (refreshComplement_ok_iff.mpr ⟨h₁, fun _ => h₂, rfl⟩), List.foldl_cons]
    refine ih fun p hp => ?_
    simpa [WireStore.contains_eq] using h p (List.mem_cons_of_mem pair hp)

end GateNet.Circuit
