import GateNet.Proofs.Netlist.GateLine

/-!
The order of the lines of a netlist. Order decides which texts are accepted, but among accepted ones it
decides nothing else: a wire that is declared as an input is declared so by its first line, a wire that
is read in the polarity it was not declared in ends in that polarity whenever it is read so, and gates,
inputs and values each come from one line. So the circuit that consistent statements describe depends
on the statements alone, and on the order of the outputs.
-/

namespace GateNet

open Circuit Netlist

namespace Polarity

/-- A wire ends in the polarity that it was not declared in exactly if some reading is in that one. -/
theorem ofHistory_eq {p : Bool} {later : List Bool} (h : changes (p :: later) ≤ 1) :
    ofHistory (p :: later) = ⟨p ^^ later.any (· != p), later.any (· != p)⟩ := by
  rw [ofHistory, List.getLastD_cons, getLastD_of_changes h, any_ne_eq]

end Polarity

namespace Netlist

variable {ss ts : List Statement} {c d : Circuit} {w : Nat}

/-! ### What the statements say in any order -/

/-- A wire is declared inverted by an input line, wherever that line stands. -/
theorem declaredInverted_iff (adm : AdmissibleAfter [] ss) :
    declaredInverted ss w = true ↔ Statement.input ⟨w, true⟩ ∈ ss := by
  induction ss using List.reverseRecOn with
  | nil => simp [declaredInverted]
  | append_singleton ss s ih =>
    obtain ⟨prior, last⟩ := admissible_concat.mp adm
    rw [List.mem_append, List.mem_singleton]
    by_cases hw : w ∈ declared ss
    · -- no input line follows a declaration of its wire
      have hlast : Statement.input ⟨w, true⟩ ≠ s := by
        rintro rfl
        exact last hw
      rw [declaredInverted_append hw, ih prior]
      simp [hlast]
    · have hprior : Statement.input ⟨w, true⟩ ∉ ss := by
        intro hmem
        exact hw (List.mem_map.mpr ⟨_, hmem, rfl⟩)
      rw [declaredInverted_append_right hw, declaredInverted, List.find?_singleton]
      rcases s with ⟨v, inverted⟩ | ⟨l, seed⟩ | ⟨f, out, a, b⟩
      · by_cases hv : v = w
        · simp [hv, hprior, Statement.wire, Statement.declaredInverted, eq_comm]
        · simp [hv, Ne.symm hv, hprior, Statement.wire]
      · by_cases hv : l.wire = w <;> simp [hv, hprior, Statement.wire, Statement.declaredInverted]
      · by_cases hv : out = w <;> simp [hv, hprior, Statement.wire, Statement.declaredInverted]

/-- A wire gets its value from the line of an output. -/
theorem seed?_eq_some_iff (adm : AdmissibleAfter [] ss) {x : Bool} :
    seed? ss w = some x ↔ ∃ l : Literal, l.wire = w ∧ Statement.output l (some x) ∈ ss := by
  constructor
  · intro h
    obtain ⟨s, hs, hx⟩ := List.exists_of_findSome?_eq_some h
    rcases s with l | ⟨l, seed⟩ | ⟨f, out, a, b⟩
    · simp [Statement.seedFor?] at hx
    · obtain ⟨hl, rfl⟩ : l.wire = w ∧ seed = some x := by simpa [Statement.seedFor?] using hx
      exact ⟨l, hl, hs⟩
    · simp [Statement.seedFor?] at hx
  · rintro ⟨l, rfl, hs⟩
    exact seed?_output adm hs

theorem find?_gates_eq_some_iff (adm : AdmissibleAfter [] ss) {g : Gate} :
    (gates ss).find? (·.out == w) = some g ↔ g ∈ gates ss ∧ g.out = w := by
  constructor
  · intro h
    have hout := List.find?_some h
    exact ⟨List.mem_of_find?_eq_some h, by simpa using hout⟩
  · rintro ⟨hg, rfl⟩
    -- the search cannot end at another gate that drives the same wire
    cases h : (gates ss).find? (·.out == g.out) with
    | none => simp at h; exact absurd rfl (h g hg)
    | some k =>
      have hout : k.out = g.out := by simpa using List.find?_some h
      rw [List.inj_on_of_nodup_map (driven_nodup adm) (List.mem_of_find?_eq_some h) hg hout]

/-! ### Statements in two orders -/

variable (adm : AdmissibleAfter [] ss) (adm' : AdmissibleAfter [] ts) (perm : ss.Perm ts)

include adm adm' perm

theorem declaredInverted_perm (w : Nat) : declaredInverted ss w = declaredInverted ts w := by
  rw [Bool.eq_iff_iff, declaredInverted_iff adm, declaredInverted_iff adm', perm.mem_iff]

theorem seed?_perm (w : Nat) : seed? ss w = seed? ts w := by
  refine Option.ext fun x => ?_
  simp only [seed?_eq_some_iff adm, seed?_eq_some_iff adm', perm.mem_iff]

theorem find?_gates_perm (w : Nat) :
    (gates ss).find? (·.out == w) = (gates ts).find? (·.out == w) := by
  have hgates : (gates ss).Perm (gates ts) := perm.filterMap _
  refine Option.ext fun g => ?_
  simp only [find?_gates_eq_some_iff adm, find?_gates_eq_some_iff adm', hgates.mem_iff]

/-- The readings of a wire may come in another order, but they lead to the same polarity. -/
theorem ofHistory_polarities_perm (steady : changes (polarities ss w) ≤ 1)
    (steady' : changes (polarities ts w) ≤ 1) :
    Polarity.ofHistory (polarities ss w) = Polarity.ofHistory (polarities ts w) := by
  have hreadings : (readings ss w).Perm (readings ts w) :=
    ((perm.flatMap_right _).filter _).map _
  rw [polarities] at steady steady' ⊢
  rw [polarities, Polarity.ofHistory_eq steady, Polarity.ofHistory_eq steady',
    declaredInverted_perm adm adm' perm w, hreadings.any_eq]

omit adm adm' perm

/-- The circuit that consistent statements describe is described by them in every consistent order that
leaves the outputs in theirs. -/
theorem Describes.reorder (h : Describes ss c) (hs : Consistent ss) (ht : Consistent ts)
    (perm : ss.Perm ts) (houtputs : Netlist.outputs ss = Netlist.outputs ts) : Describes ts c where
  origin := h.origin
  raw? w := by rw [h.raw?, seed?_perm hs.admissible ht.admissible perm]
  polarity? w := by
    have hdeclared : w ∈ declared ss ↔ w ∈ declared ts := (perm.map _).mem_iff
    simp only [h.polarity?, hdeclared, ofHistory_polarities_perm hs.admissible ht.admissible perm
      (hs.polarity w) (ht.polarity w)]
  isInput w := by rw [h.isInput]; exact (perm.filterMap _).mem_iff
  outputs := by rw [h.outputs, houtputs]
  isOutput w := by rw [h.isOutput, houtputs]
  gate? w := by rw [h.gate?, find?_gates_perm hs.admissible ht.admissible perm]
  tally f := by rw [h.tally]; exact (perm.filterMap _).countP_eq _
  complements := h.complements
  inputComplements := h.inputComplements
  nextWire := h.nextWire

/-- Statements describe one circuit at most. -/
theorem Describes.unique (h : Describes ss c) (h' : Describes ss d) : c = d := by
  refine Circuit.ext ?_ ?_ ?_ ?_ ?_ ?_ ?_ ?_ ?_ ?_
  · rw [h.origin, h'.origin]
  · exact WireStore.ext_views (fun w => by rw [h.raw?, h'.raw?])
      fun w => by rw [h.polarity?, h'.polarity?]
  · refine Std.ExtTreeMap.ext_getElem? fun w => ?_
    exact (h.gate? w).trans (h'.gate? w).symm
  · refine Std.ExtTreeSet.ext_contains fun w => ?_
    exact Bool.eq_iff_iff.mpr ((h.isInput w).trans (h'.isInput w).symm)
  · rw [h.outputs, h'.outputs]
  · refine Std.ExtTreeSet.ext_contains fun w => ?_
    exact Bool.eq_iff_iff.mpr ((h.isOutput w).trans (h'.isOutput w).symm)
  · rw [h.complements, h'.complements]
  · rw [h.inputComplements, h'.inputComplements]
  · rw [h.nextWire, h'.nextWire]
  · exact GateTally.ext_count fun f => by rw [h.tally, h'.tally]

/-- Two texts that are accepted and say the same in another order, the outputs in the same one, give the
same circuit. -/
theorem parse_reordered {text text' : String} {ss ts : List Statement} {c d : Circuit}
    (hss : statementsOf text = .ok ss) (hts : statementsOf text' = .ok ts) (perm : ss.Perm ts)
    (houtputs : outputs ss = outputs ts) (hc : parse text = .ok c) (hd : parse text' = .ok d) :
    c = d := by
  obtain ⟨ss', hss', hs, hdesc⟩ := parse_ok hc
  obtain ⟨ts', hts', ht, hdesc'⟩ := parse_ok hd
  rw [hss] at hss'
  rw [hts] at hts'
  cases hss'
  cases hts'
  exact (hdesc.reorder hs ht perm houtputs).unique hdesc'

/-- Inputs, an output and the readers of an inverted wire change places, and a comment is put in. -/
theorem parse_reordered_readers :
    ∃ c, parse "I:0\nI:2\nO:5\n4 8 1 2\n6 6 1 5\nO:6:1\n" = .ok c ∧
      parse "I:2\nO:5\nI:0\n4 8 1 2\nO:6:1\n# parity\n6 6 1 5\n" = .ok c := by
  have hss : statementsOf "I:0\nI:2\nO:5\n4 8 1 2\n6 6 1 5\nO:6:1\n" =
      .ok [.input ⟨0, false⟩, .input ⟨1, false⟩, .output ⟨2, true⟩ none,
        .gate .and 2 ⟨0, true⟩ ⟨1, false⟩, .gate .xor 3 ⟨0, true⟩ ⟨2, true⟩,
        .output ⟨3, false⟩ (some true)] := rfl
  have hts : statementsOf "I:2\nO:5\nI:0\n4 8 1 2\nO:6:1\n# parity\n6 6 1 5\n" =
      .ok [.input ⟨1, false⟩, .output ⟨2, true⟩ none, .input ⟨0, false⟩,
        .gate .and 2 ⟨0, true⟩ ⟨1, false⟩, .output ⟨3, false⟩ (some true),
        .gate .xor 3 ⟨0, true⟩ ⟨2, true⟩] := rfl
  obtain ⟨c, hc⟩ : ∃ c, parse "I:0\nI:2\nO:5\n4 8 1 2\n6 6 1 5\nO:6:1\n" = .ok c := ⟨_, rfl⟩
  obtain ⟨d, hd⟩ : ∃ d, parse "I:2\nO:5\nI:0\n4 8 1 2\nO:6:1\n# parity\n6 6 1 5\n" = .ok d :=
    ⟨_, rfl⟩
  have hsame : c = d := parse_reordered hss hts (by decide) rfl hc hd
  exact ⟨c, hc, hsame ▸ hd⟩

end Netlist

end GateNet
