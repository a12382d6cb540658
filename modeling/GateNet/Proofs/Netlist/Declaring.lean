import GateNet.Proofs.Netlist.Consistency
import GateNet.Proofs.Sequence

/-!
Declaring statements one after the other. After some statements the circuit is the one that they
describe, and the polarity of a wire tells under which polarities it was read. So the next statement
can be declared exactly if it is admissible after them and turns no wire for the second time.
-/

namespace GateNet

open Netlist

namespace Polarity

/-- The polarity of a wire after one more reading, unless that turns it for the second time. -/
def read? (p : Polarity) (inverted : Bool) : Option Polarity :=
  if p.inverted = inverted then some p else if p.flipped then none else some ⟨inverted, true⟩

/-- A reading can be added to a history that then still changes once at most. -/
theorem read?_ofHistory {history : List Bool} (hne : history ≠ []) (h : changes history ≤ 1)
    {b : Bool} {q : Polarity} :
    (ofHistory history).read? b = some q ↔
      changes (history ++ [b]) ≤ 1 ∧ q = ofHistory (history ++ [b]) := by
  have hlast : (history ++ [b]).getLastD false = b := by simp
  rw [read?, ofHistory, ofHistory, hlast, changes_concat hne]
  generalize history.getLastD false = last
  generalize changes history = n at h
  by_cases hb : last = b
  · simp only [hb, if_true, Nat.add_zero, Option.some.injEq]
    exact ⟨fun hq => ⟨h, hq.symm⟩, fun hq => hq.2.symm⟩
  · cases n with
    | zero => simp [hb, eq_comm]
    | succ n => simp [hb]

end Polarity

/-! ### The single declarations -/

namespace Circuit

variable {c d : Circuit}

theorem assign_ok_iff {w : Nat} {value : Bool} :
    c.assign w value = .ok d ↔
      c.wires.contains w = true ∧ d = { c with wires := c.wires.write w value } := by
  simp only [assign, bind_ok_iff, mapError_ok_iff, WireStore.setValue_ok_iff, pure_ok_iff]
  constructor
  · rintro ⟨wires, ⟨hc, rfl⟩, rfl⟩
    exact ⟨hc, rfl⟩
  · rintro ⟨hc, rfl⟩
    exact ⟨_, ⟨hc, rfl⟩, rfl⟩

theorem assign_error_iff {w : Nat} {value : Bool} {cause : Cause} :
    c.assign w value = .error cause ↔
      c.wires.contains w = false ∧ cause = .wire (.notFound w) := by
  simp only [assign, bind_error_iff, mapError_error_iff, pure_error_iff, and_false, exists_false,
    or_false, WireStore.setValue_eq]
  cases c.wires.contains w <;> simp

theorem ensureWire_ok_iff {w : Nat} :
    c.ensureWire w = .ok d ↔ d = { c with wires := c.wires.ensure w } := by
  cases h : c.wires.contains w with
  | true =>
    rw [ensureWire, WireStore.ensure, h, if_pos rfl, if_pos rfl, Except.ok.injEq]
    exact eq_comm
  | false =>
    rw [ensureWire, WireStore.ensure, h, if_neg Bool.false_ne_true, if_neg Bool.false_ne_true]
    simp only [bind_ok_iff, mapError_ok_iff, WireStore.insert_eq_ok_iff, pure_ok_iff]
    constructor
    · rintro ⟨wires, ⟨-, rfl⟩, rfl⟩
      rfl
    · rintro rfl
      exact ⟨_, ⟨h, rfl⟩, rfl⟩

theorem declareInput_ok_iff {l : Literal} :
    c.declareInput l = .ok d ↔
      c.wires.contains l.wire = false ∧
        d = { c with
          wires := c.wires.put l.wire ⟨none, ⟨l.inverted, false⟩⟩
          inputs := c.inputs.insert l.wire } := by
  simp only [declareInput, bind_ok_iff, mapError_ok_iff, WireStore.insert_eq_ok_iff, pure_ok_iff]
  constructor
  · rintro ⟨wires, ⟨hc, rfl⟩, rfl⟩
    exact ⟨hc, rfl⟩
  · rintro ⟨hc, rfl⟩
    exact ⟨_, ⟨hc, rfl⟩, rfl⟩

/-- The store after an output is declared for a wire. -/
def seeded (s : WireStore) (w : Nat) : Option Bool → WireStore
  | some value => (s.ensure w).write w value
  | none => s.ensure w

theorem declareOutput_ok_iff {l : Literal} {seed : Option Bool} :
    c.declareOutput l seed = .ok d ↔
      c.isOutput l.wire = false ∧
        d = { c with wires := seeded c.wires l.wire seed }.appendOutput l := by
  have hens : (c.wires.ensure l.wire).contains l.wire = true :=
    (WireStore.contains_ensure ..).mpr (.inl rfl)
  cases ho : c.isOutput l.wire with
  | true => simp [declareOutput, ho]
  | false =>
    rw [declareOutput, ho, if_neg Bool.false_ne_true]
    cases seed with
    | none =>
      simp only [bind_ok_iff, ensureWire_ok_iff, pure_ok_iff, true_and]
      constructor
      · rintro ⟨_, rfl, _, h, rfl⟩
        cases h
        rfl
      · rintro rfl
        exact ⟨_, rfl, _, rfl, rfl⟩
    | some value =>
      simp only [bind_ok_iff, ensureWire_ok_iff, assign_ok_iff, pure_ok_iff, true_and]
      constructor
      · rintro ⟨_, rfl, _, ⟨-, rfl⟩, rfl⟩
        rfl
      · rintro rfl
        exact ⟨_, rfl, _, ⟨hens, rfl⟩, rfl⟩

theorem matchPolarity_ok_iff {l : Literal} :
    c.matchPolarity l = .ok d ↔
      ∃ p q, c.wires.polarity? l.wire = some p ∧ p.read? l.inverted = some q ∧
        d = { c with wires := c.wires.turn l.wire q } := by
  simp only [matchPolarity, cell, bind_ok_iff, mapError_ok_iff, WireStore.cell_eq_ok_iff]
  constructor
  · rintro ⟨cell, hc, h⟩
    have hp : c.wires.polarity? l.wire = some cell.polarity := by simp [WireStore.polarity?, hc]
    refine ⟨cell.polarity, ?_⟩
    split at h
    · rename_i hi
      refine ⟨cell.polarity, hp, if_pos hi, ?_⟩
      rw [WireStore.turn_of_polarity? hp]
      exact (pure_ok_iff.mp h).symm
    · rename_i hi
      obtain ⟨wires, hf, hd⟩ := bind_ok_iff.mp h
      cases pure_ok_iff.mp hd
      obtain ⟨hunflipped, rfl⟩ := (WireStore.flip_ok_iff hp).mp (mapError_ok_iff.mp hf)
      have hturn : (!cell.polarity.inverted) = l.inverted := Bool.not_eq.mpr hi
      exact ⟨⟨l.inverted, true⟩, hp, by simp [Polarity.read?, hi, hunflipped], by rw [hturn]⟩
  · rintro ⟨p, q, hp, hq, rfl⟩
    obtain ⟨cell, hc, rfl⟩ := Option.map_eq_some_iff.mp hp
    refine ⟨cell, hc, ?_⟩
    rw [Polarity.read?] at hq
    split at hq
    · rename_i hi
      rw [if_pos hi]
      cases hq
      rw [WireStore.turn_of_polarity? hp]
      rfl
    · rename_i hi
      rw [if_neg hi]
      split at hq
      · cases hq
      · rename_i hflipped
        cases hq
        have hturn : (!cell.polarity.inverted) = l.inverted := Bool.not_eq.mpr hi
        refine bind_ok_iff.mpr ⟨_, mapError_ok_iff.mpr ((WireStore.flip_ok_iff hp).mpr
          ⟨by simpa using hflipped, rfl⟩), ?_⟩
        rw [hturn]
        rfl

/-- A reading that turns a wire for the second time is refused. -/
theorem matchPolarity_error {l : Literal} {p : Polarity} (hp : c.wires.polarity? l.wire = some p)
    (hr : p.read? l.inverted = none) :
    c.matchPolarity l = .error (.wire (.doubleInversion l.wire)) := by
  obtain ⟨cell, hc, rfl⟩ := Option.map_eq_some_iff.mp hp
  have hcell : c.wires.cell l.wire = .ok cell := WireStore.cell_eq_ok_iff.mpr hc
  rw [Polarity.read?] at hr
  split at hr
  · cases hr
  · rename_i hi
    split at hr
    · rename_i hflipped
      rw [matchPolarity, Circuit.cell, hcell]
      refine bind_error_iff.mpr (.inr ⟨cell, rfl, ?_⟩)
      rw [if_neg hi, WireStore.flip_error hp hflipped]
      rfl
    · cases hr

theorem checkOperand_ok_iff {out w : Nat} {u : Unit} :
    c.checkOperand out w = .ok u ↔ w ≠ out ∧ c.wires.contains w = true := by
  rw [checkOperand]
  by_cases hw : w = out
  · simp [hw]
  · cases hc : c.wires.contains w <;> simp [hw]

/-- Of a registered wire it can be told whether it has a driver. -/
theorem isDriven_of_contains {w : Nat} (hw : c.wires.contains w = true) :
    c.isDriven w = .ok (c.isInput w || c.isGateOutput w || (c.wires.raw? w).isSome) := by
  obtain ⟨cell, hcell⟩ := WireStore.contains_iff.mp hw
  rw [isDriven, Circuit.cell, WireStore.cell_eq_ok_iff.mpr hcell, WireStore.raw?, hcell]
  cases c.isInput w || c.isGateOutput w <;> rfl

theorem declareGate_ok_iff {f : GateFunction} {out : Nat} {a b : Literal} :
    c.declareGate f out a b = .ok d ↔
      (c.isGateOutput out = false ∧ c.isInput out = false) ∧
      (a.wire ≠ out ∧ c.wires.contains a.wire = true) ∧
      (b.wire ≠ out ∧ c.wires.contains b.wire = true) ∧
      ∃ d₁ d₂, matchPolarity { c with wires := c.wires.ensure out } a = .ok d₁ ∧
        d₁.matchPolarity b = .ok d₂ ∧
        d = { d₂ with
          gates := d₂.gates.insert out ⟨f, a.wire, b.wire, out⟩
          tally := d₂.tally.add f } := by
  cases hg : c.isGateOutput out with
  | true => simp [declareGate, hg]
  | false =>
    cases hi : c.isInput out with
    | true => simp [declareGate, hg, hi]
    | false =>
      -- neither reading touches the gates, so the driver can be registered
      have hfree : ∀ {d₁ d₂ : Circuit},
          matchPolarity { c with wires := c.wires.ensure out } a = .ok d₁ →
          d₁.matchPolarity b = .ok d₂ → d₂.isGateOutput out = false := by
        intro d₁ d₂ h₁ h₂
        obtain ⟨_, _, _, _, rfl⟩ := matchPolarity_ok_iff.mp h₁
        obtain ⟨_, _, _, _, rfl⟩ := matchPolarity_ok_iff.mp h₂
        exact hg
      simp only [declareGate, hg, hi, Bool.false_eq_true, if_false, bind_ok_iff,
        checkOperand_ok_iff, ensureWire_ok_iff, true_and, and_self]
      constructor
      · rintro ⟨-, ha, -, hb, _, rfl, d₁, h₁, d₂, h₂, h⟩
        simp only [addDriver, hfree h₁ h₂, Bool.false_eq_true, if_false, Except.ok.injEq] at h
        exact ⟨ha, hb, d₁, d₂, h₁, h₂, h.symm⟩
      · rintro ⟨ha, hb, d₁, d₂, h₁, h₂, rfl⟩
        refine ⟨(), ha, (), hb, _, rfl, d₁, h₁, d₂, h₂, ?_⟩
        simp only [addDriver, hfree h₁ h₂, Bool.false_eq_true, if_false]

/-! ### Wires and their histories -/

/-- The histories of the wires after one more reading. -/
def readAfter (history : Nat → List Bool) (l : Literal) (w : Nat) : List Bool :=
  if l.wire = w then history w ++ [l.inverted] else history w

/-- A reading can only turn the wire that it reads. -/
theorem steady_readAfter_iff {history : Nat → List Bool} {l : Literal}
    (steady : ∀ w, changes (history w) ≤ 1) :
    (∀ w, changes (readAfter history l w) ≤ 1) ↔ changes (readAfter history l l.wire) ≤ 1 := by
  constructor
  · exact fun hs => hs l.wire
  · intro hs w
    by_cases hw : l.wire = w
    · exact hw ▸ hs
    · rw [readAfter, if_neg hw]
      exact steady w

/-- A gate line reads its two literals. -/
theorem polarities_concat_gate (ss : List Statement) (f : GateFunction) (out : Nat) (a b : Literal)
    (w : Nat) :
    polarities (ss ++ [.gate f out a b]) w = readAfter (readAfter (polarities ss) a) b w := by
  have hreads : readings [.gate f out a b] w =
      (if a.wire = w then [a.inverted] else []) ++ if b.wire = w then [b.inverted] else [] := by
    by_cases ha : a.wire = w <;> by_cases hb : b.wire = w <;>
      simp [readings, Statement.reads, ha, hb]
  rw [polarities_concat rfl, hreads, readAfter, readAfter]
  by_cases ha : a.wire = w <;> by_cases hb : b.wire = w <;> simp [ha, hb]

/-- Every registered wire has the polarity that its history leads to, and no history turns a wire
twice. -/
structure Shows (s : WireStore) (history : Nat → List Bool) : Prop where
  nonempty : ∀ w, history w ≠ []
  steady : ∀ w, changes (history w) ≤ 1
  polarity : ∀ w p, s.polarity? w = some p → p = .ofHistory (history w)

namespace Shows

variable {s : WireStore} {history : Nat → List Bool} {l : Literal}

theorem polarity?_eq (h : Shows s history) {w : Nat} (hw : s.contains w = true) :
    s.polarity? w = some (.ofHistory (history w)) := by
  rw [WireStore.contains_eq, Option.isSome_iff_exists] at hw
  obtain ⟨p, hp⟩ := hw
  rw [hp, h.polarity w p hp]

theorem matchPolarity_error (h : Shows c.wires history) (hl : c.wires.contains l.wire = true)
    (hs : 1 < changes (readAfter history l l.wire)) :
    c.matchPolarity l = .error (.wire (.doubleInversion l.wire)) := by
  refine Circuit.matchPolarity_error (h.polarity?_eq hl) ?_
  rw [Option.eq_none_iff_forall_ne_some]
  intro q hq
  have hle := ((Polarity.read?_ofHistory (h.nonempty _) (h.steady _)).mp hq).1
  rw [readAfter, if_pos rfl] at hs
  omega

theorem turn (h : Shows s history) (hl : s.contains l.wire = true)
    (hs : ∀ w, changes (readAfter history l w) ≤ 1) :
    Shows (s.turn l.wire (.ofHistory (readAfter history l l.wire))) (readAfter history l) where
  nonempty w := by
    rw [readAfter]
    split
    · simp
    · exact h.nonempty w
  steady := hs
  polarity w p hp := by
    rw [WireStore.polarity?_turn hl] at hp
    split at hp
    · rename_i hw
      rw [← hw]
      exact (Option.some.inj hp).symm
    · rename_i hw
      rw [readAfter, if_neg hw]
      exact h.polarity w p hp

/-- A wire can be read unless the reading turns it for the second time. -/
theorem matchPolarity_ok_iff (h : Shows c.wires history) (hl : c.wires.contains l.wire = true) :
    c.matchPolarity l = .ok d ↔
      (∀ w, changes (readAfter history l w) ≤ 1) ∧
        d = { c with
          wires := c.wires.turn l.wire (.ofHistory (readAfter history l l.wire)) } := by
  have hread : ∀ q, (Polarity.ofHistory (history l.wire)).read? l.inverted = some q ↔
      changes (readAfter history l l.wire) ≤ 1 ∧ q = .ofHistory (readAfter history l l.wire) := by
    intro q
    rw [readAfter, if_pos rfl]
    exact Polarity.read?_ofHistory (h.nonempty _) (h.steady _)
  rw [Circuit.matchPolarity_ok_iff, steady_readAfter_iff h.steady]
  simp only [h.polarity?_eq hl, Option.some.injEq]
  constructor
  · rintro ⟨p, q, rfl, hq, rfl⟩
    obtain ⟨hs, rfl⟩ := (hread q).mp hq
    exact ⟨hs, rfl⟩
  · rintro ⟨hs, rfl⟩
    exact ⟨_, _, rfl, (hread _).mpr ⟨hs, rfl⟩, rfl⟩

end Shows

theorem changes_readAfter_le (history : Nat → List Bool) (l : Literal) (w : Nat) :
    changes (history w) ≤ changes (readAfter history l w) := by
  rw [readAfter]
  split
  · exact changes_le_append ..
  · exact Nat.le_refl _

/-- The store after two readings in a row. -/
def readBoth (s : WireStore) (history : Nat → List Bool) (a b : Literal) : WireStore :=
  (s.turn a.wire (.ofHistory (readAfter history a a.wire))).turn b.wire
    (.ofHistory (readAfter (readAfter history a) b b.wire))

@[simp] theorem raw?_readBoth (s : WireStore) (history : Nat → List Bool) (a b : Literal)
    (w : Nat) : (readBoth s history a b).raw? w = s.raw? w := by
  rw [readBoth, WireStore.raw?_turn, WireStore.raw?_turn]

@[simp] theorem contains_readBoth (s : WireStore) (history : Nat → List Bool) (a b : Literal)
    (w : Nat) : (readBoth s history a b).contains w = s.contains w := by
  rw [readBoth, WireStore.contains_turn, WireStore.contains_turn]

variable {s : WireStore} {history : Nat → List Bool} {a b : Literal}

theorem Shows.readBoth (h : Shows s history) (ha : s.contains a.wire = true)
    (hb : s.contains b.wire = true)
    (hs : ∀ w, changes (readAfter (readAfter history a) b w) ≤ 1) :
    Shows (readBoth s history a b) (readAfter (readAfter history a) b) := by
  have hs' : ∀ w, changes (readAfter history a w) ≤ 1 :=
    fun w => Nat.le_trans (changes_readAfter_le _ b w) (hs w)
  exact (h.turn ha hs').turn (by rwa [WireStore.contains_turn]) hs

/-- The two wires of a gate are read one after the other, and may be the same. -/
theorem Shows.matchBoth_ok_iff (h : Shows c.wires history) (ha : c.wires.contains a.wire = true)
    (hb : c.wires.contains b.wire = true) :
    (∃ d₁, c.matchPolarity a = .ok d₁ ∧ d₁.matchPolarity b = .ok d) ↔
      (∀ w, changes (readAfter (readAfter history a) b w) ≤ 1) ∧
        d = { c with wires := Circuit.readBoth c.wires history a b } := by
  constructor
  · rintro ⟨d₁, h₁, h₂⟩
    obtain ⟨hs, rfl⟩ := (h.matchPolarity_ok_iff ha).mp h₁
    exact ((h.turn ha hs).matchPolarity_ok_iff (by rwa [WireStore.contains_turn])).mp h₂
  · rintro ⟨hs, rfl⟩
    have hs' : ∀ w, changes (readAfter history a w) ≤ 1 :=
      fun w => Nat.le_trans (changes_readAfter_le _ b w) (hs w)
    refine ⟨_, (h.matchPolarity_ok_iff ha).mpr ⟨hs', rfl⟩, ?_⟩
    exact ((h.turn ha hs').matchPolarity_ok_iff (by rwa [WireStore.contains_turn])).mpr ⟨hs, rfl⟩

end Circuit

end GateNet
