import GateNet.Proofs.Solution

/-!
What a gate line comes to. A wire has one polarity for all its readers, and it is the one of the last
gate line that reads it. So a gate line whose wires are later read in the opposite polarity is evaluated
with these wires flipped, and computes what it says only where its function does not notice.
-/

namespace GateNet

open Circuit Netlist

namespace Netlist

/-- A reading later in the list is in the polarity opposite to that of the literal. -/
def opposed (later : List Literal) (l : Literal) : Bool :=
  later.any fun k => k.wire == l.wire && k.inverted != l.inverted

theorem any_ne_eq (p : Bool) (later : List Bool) :
    later.any (· != p) = (changes (p :: later) != 0) := by
  induction later generalizing p with
  | nil => rfl
  | cons q rest ih =>
    rw [List.any_cons, changes]
    by_cases hq : p = q
    · subst hq
      simp [ih]
    · have hq' : (q != p) = true := bne_iff_ne.mpr fun e => hq e.symm
      simp [hq, hq']

/-- A sequence that changes once at most ends opposite to its start exactly if it changes. -/
theorem getLastD_of_changes {p : Bool} {later : List Bool} (h : changes (p :: later) ≤ 1) :
    later.getLastD p = (p ^^ later.any (· != p)) := by
  rw [any_ne_eq]
  induction later generalizing p with
  | nil => simp [changes]
  | cons q rest ih =>
    rw [changes] at h
    rw [List.getLastD_cons, changes]
    by_cases hq : p = q
    · subst hq
      simpa using ih (by simpa using h)
    · -- the one change is here, so none follows
      have hzero : changes (q :: rest) = 0 := by simp [hq] at h; omega
      have hrest := ih (p := q) (by omega)
      rw [hzero] at hrest ⊢
      rw [hrest]
      cases p <;> cases q <;> simp at hq ⊢

theorem changes_le_prepend (xs ys : List Bool) : changes ys ≤ changes (xs ++ ys) := by
  induction xs with
  | nil => exact Nat.le_refl _
  | cons x xs ih =>
    cases hys : xs ++ ys with
    | nil =>
      rw [List.append_eq_nil_iff] at hys
      simp [hys.2, changes]
    | cons y rest =>
      rw [List.cons_append, hys, changes, ← hys]
      exact Nat.le_trans ih (Nat.le_add_left _ _)

/-- The last polarity of a wire, from any of its readings on. -/
theorem ofHistory_polarities {ss : List Statement} {xs ys : List Literal} {l : Literal}
    (hreads : ss.flatMap Statement.reads = xs ++ l :: ys)
    (steady : changes (polarities ss l.wire) ≤ 1) :
    (Polarity.ofHistory (polarities ss l.wire)).inverted = (l.inverted ^^ opposed ys l) := by
  let laterReadings := (ys.filter (·.wire == l.wire)).map (·.inverted)
  let before := declaredInverted ss l.wire :: (xs.filter (·.wire == l.wire)).map (·.inverted)
  have hsplit : polarities ss l.wire = before ++ l.inverted :: laterReadings := by
    simp [polarities, readings, hreads, before, laterReadings]
  have hopposed : opposed ys l = laterReadings.any (· != l.inverted) := by
    simp [opposed, laterReadings, List.any_filter]
  rw [hsplit] at steady
  have hlater := Nat.le_trans (changes_le_prepend before _) steady
  rw [Polarity.ofHistory, hsplit, hopposed, ← getLastD_of_changes hlater]
  simp [List.getLastD_eq_getLast?, List.getLast?_cons]

end Netlist

/-- What readers see of a wire of a netlist. -/
theorem seen?_of_describes {ss : List Statement} {c d : Circuit} (h : Describes ss c)
    (same : SameStructure c d) {w : Nat} (hw : w ∈ declared ss) :
    d.wires.seen? w =
      (d.wires.raw? w).map (· ^^ (Polarity.ofHistory (polarities ss w)).inverted) := by
  rw [WireStore.seen?_eq, same.polarity?, h.polarity?, if_pos hw, Option.bind_some]
  rfl

/-- A gate line is evaluated under its own parities, but a wire that is read in the other polarity
after it, by its own second operand or by a later line, is flipped. So the line computes what it says
exactly if its function does not notice the flips. -/
theorem gate_line_value {text values : String} {before after : List Statement} {f : GateFunction}
    {out : Nat} {a b : Literal} {c e : Circuit}
    (hss : statementsOf text = .ok (before ++ .gate f out a b :: after))
    (hc : parse text = .ok c) (he : (Values.load c values).state.execute = ⟨e, none⟩) :
    ∃ x y, e.wires.raw? a.wire = some x ∧ e.wires.raw? b.wire = some y ∧
      e.wires.raw? out = some (f.eval
        ((x ^^ a.inverted) ^^ opposed (b :: after.flatMap Statement.reads) a)
        ((y ^^ b.inverted) ^^ opposed (after.flatMap Statement.reads) b)) ∧
      (e.wires.raw? out = some (f.eval (x ^^ a.inverted) (y ^^ b.inverted)) ↔
        f.eval ((x ^^ a.inverted) ^^ opposed (b :: after.flatMap Statement.reads) a)
          ((y ^^ b.inverted) ^^ opposed (after.flatMap Statement.reads) b) =
        f.eval (x ^^ a.inverted) (y ^^ b.inverted)) := by
  obtain ⟨ss, hss', hcons, hdesc⟩ := parse_ok hc
  rw [hss] at hss'
  obtain rfl := Except.ok.inj hss'
  -- the circuit with the values loaded has the gates and polarities of the netlist
  have hl := (Reachable.load (.parsed hc) values).wellFormed
  have hload := sameStructure_load c values
  generalize (Values.load c values).state = l at *
  have hok : l.settle.failure = none := congrArg Attempt.failure he
  have hwires : e.wires = l.settle.state := (congrArg (·.state.wires) he).symm
  have same : SameStructure c { l with wires := l.settle.state } :=
    hload.trans hl.sameGiven_settle.toSameStructure
  have hmem : (⟨f, a.wire, b.wire, out⟩ : Gate) ∈ Netlist.gates (before ++ .gate f out a b :: after) :=
    List.mem_filterMap.mpr ⟨.gate f out a b, by simp, rfl⟩
  have hgate : l.gate? out = some ⟨f, a.wire, b.wire, out⟩ := by
    rw [hload.rest]
    exact hdesc.gate?_out hcons.admissible hmem
  obtain ⟨⟨ha, -⟩, hb, -⟩ := gate_reads hcons.admissible hmem
  obtain ⟨p, q, hp, hq, hout⟩ := hl.settle_gate hok hgate
  have readsFromA : (before ++ .gate f out a b :: after).flatMap Statement.reads =
      before.flatMap Statement.reads ++ a :: b :: after.flatMap Statement.reads := by
    simp [Statement.reads]
  have readsFromB : (before ++ .gate f out a b :: after).flatMap Statement.reads =
      (before.flatMap Statement.reads ++ [a]) ++ b :: after.flatMap Statement.reads := by
    simp [Statement.reads]
  have hpa := ofHistory_polarities readsFromA (hcons.polarity _)
  have hpb := ofHistory_polarities readsFromB (hcons.polarity _)
  obtain ⟨x, hx, rfl⟩ := Option.map_eq_some_iff.mp ((seen?_of_describes hdesc same ha).symm.trans hp)
  obtain ⟨y, hy, rfl⟩ := Option.map_eq_some_iff.mp ((seen?_of_describes hdesc same hb).symm.trans hq)
  rw [hpa, hpb, ← Bool.xor_assoc, ← Bool.xor_assoc] at hout
  rw [hwires]
  refine ⟨x, y, hx, hy, hout, ?_⟩
  rw [hout]
  exact ⟨Option.some.inj, congrArg some⟩

/-- Two conjunctions of the same wires, of which the second reads the first wire inverted: the first
conjunction is evaluated with the wire inverted too. -/
theorem gate_line_value_flipped :
    ∃ c e, parse "I:0\nI:2\n4 8 0 2\n6 8 1 2\nO:4\nO:6\n" = .ok c ∧
      (Values.load c "0 1\n2 1\n").state.execute = ⟨e, none⟩ ∧
      ∃ x y, e.wires.raw? 0 = some x ∧ e.wires.raw? 1 = some y ∧
        e.wires.raw? 2 = some (GateFunction.and.eval ((x ^^ false) ^^ true) ((y ^^ false) ^^ false)) := by
  have hss : statementsOf "I:0\nI:2\n4 8 0 2\n6 8 1 2\nO:4\nO:6\n" =
      .ok ([.input ⟨0, false⟩, .input ⟨1, false⟩] ++ .gate .and 2 ⟨0, false⟩ ⟨1, false⟩ ::
        [.gate .and 3 ⟨0, true⟩ ⟨1, false⟩, .output ⟨2, false⟩ none, .output ⟨3, false⟩ none]) := rfl
  obtain ⟨c, e, hc, he⟩ : ∃ c e, parse "I:0\nI:2\n4 8 0 2\n6 8 1 2\nO:4\nO:6\n" = .ok c ∧
      (Values.load c "0 1\n2 1\n").state.execute = ⟨e, none⟩ := ⟨_, _, rfl, rfl⟩
  obtain ⟨x, y, hx, hy, hout, -⟩ := gate_line_value hss hc he
  exact ⟨c, e, hc, he, x, y, hx, hy, hout⟩

/-- Not every gate line of an accepted netlist is evaluated under its own parities. -/
theorem gate_line_not_as_read :
    ¬ ∀ (text values : String) (ss : List Statement) (f : GateFunction) (out : Nat) (a b : Literal)
        (c e : Circuit), statementsOf text = .ok ss → .gate f out a b ∈ ss → parse text = .ok c →
        (Values.load c values).failure = none → (Values.load c values).state.execute = ⟨e, none⟩ →
        ∃ x y, e.wires.raw? a.wire = some x ∧ e.wires.raw? b.wire = some y ∧
          e.wires.raw? out = some (f.eval (x ^^ a.inverted) (y ^^ b.inverted)) := by
  intro h
  have hss : statementsOf "I:0\nI:2\n4 8 0 2\n6 8 1 2\nO:4\nO:6\n" =
      .ok [.input ⟨0, false⟩, .input ⟨1, false⟩, .gate .and 2 ⟨0, false⟩ ⟨1, false⟩,
        .gate .and 3 ⟨0, true⟩ ⟨1, false⟩, .output ⟨2, false⟩ none, .output ⟨3, false⟩ none] := rfl
  obtain ⟨c, e, hc, hl, he, h0, h1, h2⟩ :
      ∃ c e, parse "I:0\nI:2\n4 8 0 2\n6 8 1 2\nO:4\nO:6\n" = .ok c ∧
        (Values.load c "0 1\n2 1\n").failure = none ∧
        (Values.load c "0 1\n2 1\n").state.execute = ⟨e, none⟩ ∧
        e.wires.raw? 0 = some true ∧ e.wires.raw? 1 = some true ∧ e.wires.raw? 2 = some false :=
    ⟨_, _, rfl, rfl, rfl, rfl, rfl, rfl⟩
  obtain ⟨x, y, hx, hy, hout⟩ := h _ "0 1\n2 1\n" _ .and 2 ⟨0, false⟩ ⟨1, false⟩ c e hss (by simp)
    hc hl he
  rw [h0] at hx
  rw [h1] at hy
  rw [h2] at hout
  cases hx
  cases hy
  cases hout

end GateNet
