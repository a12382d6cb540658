import GateNet.Proofs.Complement
import GateNet.Proofs.Netlist.WrittenLine
import GateNet.Proofs.Structure

/-!
Loading a value file. Of several lines for one wire the last one counts, nothing but raw values changes,
and the first bad line ends the loading with the lines before it in effect. The value file that a circuit
is written to says what the circuit holds, so loading it back changes nothing; here the indices of the
wires have to be numbers that can be read, which only a circuit that is built up could outgrow.
-/

namespace GateNet

open Circuit Text

variable {c d e : Circuit} {line : List Char} {w : Nat} {x : Bool}

namespace Values

/-! ### What lines say -/

/-- The line is passed over: it is a comment or the heading, or it has not two words. -/
def Passed (line : List Char) : Prop :=
  '#' ∈ line ∨ (words line).length ≠ 2 ∨ (words line).head? = some "input".toList

/-- The line gives the wire a value: its words are a number that halves to the wire, and a bit. -/
def Gives (line : List Char) (w : Nat) (x : Bool) : Prop :=
  ¬ Passed line ∧ ∃ index n, words line = [index, bitChars x] ∧ Denotes index n ∧ n / 2 = w

/-- The line is passed over, or it gives a registered wire a value. -/
def Acceptable (c : Circuit) (line : List Char) : Prop :=
  Passed line ∨ ∃ w x, Gives line w x ∧ c.wires.contains w = true

/-- Why a line cannot be loaded. The index is looked at before the value, and the wire comes last. -/
inductive Bad (c : Circuit) (line : List Char) : Cause → Prop
  | index {index value : List Char} : ¬ Passed line → words line = [index, value] →
      (∀ n, ¬ Denotes index n) → Bad c line (.invalidToken (String.ofList index))
  | value {index value : List Char} {n : Nat} : ¬ Passed line → words line = [index, value] →
      Denotes index n → (∀ x, value ≠ bitChars x) → Bad c line (.nonBinaryValue (String.ofList value))
  | wire {w : Nat} {x : Bool} : Gives line w x → c.wires.contains w = false →
      Bad c line (.wire (.notFound w))

/-- A line that is not passed over has two words, and the first is not the heading's. -/
theorem not_passed_iff :
    ¬ Passed line ↔
      '#' ∉ line ∧ ∃ index value, words line = [index, value] ∧ index ≠ "input".toList := by
  rw [Passed, not_or, not_or, not_not, List.length_eq_two]
  constructor
  · rintro ⟨hcomment, ⟨index, value, hwords⟩, hhead⟩
    exact ⟨hcomment, index, value, hwords, fun he => hhead (by rw [hwords, he]; rfl)⟩
  · rintro ⟨hcomment, index, value, hwords, hne⟩
    refine ⟨hcomment, ⟨index, value, hwords⟩, fun hhead => hne ?_⟩
    rw [hwords] at hhead
    exact Option.some.inj hhead

theorem ofLine_of_passed (h : Passed line) : ofLine line = .ok none := by
  rw [ofLine]
  split
  · rfl
  · rename_i hcomment
    rw [List.contains_iff_mem] at hcomment
    split
    · rename_i index value hwords
      rcases h with h | h | h
      · exact absurd h hcomment
      · rw [hwords] at h
        exact absurd rfl h
      · rw [hwords] at h
        exact if_pos (Option.some.inj h)
    · rfl

/-- Of a line that is not passed over, the two words are read. -/
theorem ofLine_of_not_passed {index value : List Char} (h : ¬ Passed line)
    (hwords : words line = [index, value]) :
    ofLine line = (do
      let n ← Token.number index
      return some ((Literal.ofIndex n).wire, ← Token.bit value)) := by
  obtain ⟨hcomment, index', value', hwords', hne⟩ := not_passed_iff.mp h
  rw [hwords, List.cons.injEq] at hwords'
  rw [ofLine, if_neg (by rwa [List.contains_iff_mem]), hwords]
  exact if_neg (hwords'.1 ▸ hne)

theorem ofLine_eq_none_iff : ofLine line = .ok none ↔ Passed line := by
  refine ⟨fun h => ?_, ofLine_of_passed⟩
  by_contra hp
  obtain ⟨-, index, value, hwords, -⟩ := not_passed_iff.mp hp
  rw [ofLine_of_not_passed hp hwords] at h
  obtain ⟨n, -, h⟩ := bind_ok_iff.mp h
  obtain ⟨x, -, h⟩ := bind_ok_iff.mp h
  cases h

theorem ofLine_eq_some_iff : ofLine line = .ok (some (w, x)) ↔ Gives line w x := by
  constructor
  · intro h
    have hp : ¬ Passed line := fun hp => by
      rw [ofLine_of_passed hp] at h
      cases h
    obtain ⟨-, index, value, hwords, -⟩ := not_passed_iff.mp hp
    rw [ofLine_of_not_passed hp hwords] at h
    obtain ⟨n, hn, h⟩ := bind_ok_iff.mp h
    obtain ⟨y, hy, h⟩ := bind_ok_iff.mp h
    cases h
    exact ⟨hp, index, n, Token.bit_ok_iff.mp hy ▸ hwords, Token.number_ok_iff.mp hn, rfl⟩
  · rintro ⟨hp, index, n, hwords, hn, rfl⟩
    rw [ofLine_of_not_passed hp hwords]
    exact bind_ok_iff.mpr ⟨n, Token.number_ok_iff.mpr hn,
      bind_ok_iff.mpr ⟨x, Token.bit_ok_iff.mpr rfl, rfl⟩⟩

/-- A line gives one value to one wire at most. -/
theorem Gives.unique {v : Nat} {y : Bool} (h : Gives line w x) (h' : Gives line v y) : w = v ∧ x = y := by
  have hsame := (ofLine_eq_some_iff.mpr h).symm.trans (ofLine_eq_some_iff.mpr h')
  simpa using hsame

/-! ### One line -/

theorem assignLine_error_iff {cause : Cause} : assignLine c line = .error cause ↔ Bad c line cause := by
  constructor
  · intro h
    by_cases hp : Passed line
    · rw [assignLine, ofLine_of_passed hp] at h
      cases h
    obtain ⟨-, index, value, hwords, -⟩ := not_passed_iff.mp hp
    rcases bind_error_iff.mp h with h | ⟨found, hfound, h⟩
    · rw [ofLine_of_not_passed hp hwords] at h
      simp only [bind_error_iff, Token.number_error_iff, Token.number_ok_iff, Token.bit_error_iff,
        pure_error_iff, and_false, exists_false, or_false] at h
      rcases h with ⟨hindex, rfl⟩ | ⟨n, hn, hvalue, rfl⟩
      · exact .index hp hwords hindex
      · exact .value hp hwords hn hvalue
    · rcases found with _ | ⟨w, x⟩
      · cases h
      · obtain ⟨hw, rfl⟩ := assign_error_iff.mp h
        exact .wire (ofLine_eq_some_iff.mp hfound) hw
  · intro h
    cases h with
    | index hp hwords hindex =>
      rw [assignLine, ofLine_of_not_passed hp hwords, Token.number_error_iff.mpr ⟨hindex, rfl⟩]
      rfl
    | value hp hwords hn hvalue =>
      rw [assignLine, ofLine_of_not_passed hp hwords, Token.number_ok_iff.mpr hn,
        Token.bit_error_iff.mpr ⟨hvalue, rfl⟩]
      rfl
    | wire hgives hw =>
      rw [assignLine, ofLine_eq_some_iff.mpr hgives]
      exact assign_error_iff.mpr ⟨hw, rfl⟩

/-- A line is loaded exactly if it is acceptable. -/
theorem exists_loadLine_iff {n : Nat} : (∃ d, loadLine c (line, n) = .ok d) ↔ Acceptable c line := by
  simp only [loadLine_ok_iff, ofLine_eq_none_iff, ofLine_eq_some_iff, Acceptable]
  constructor
  · rintro ⟨d, ⟨hp, -⟩ | ⟨w, x, hgives, hw, -⟩⟩
    · exact .inl hp
    · exact .inr ⟨w, x, hgives, hw⟩
  · rintro (hp | ⟨w, x, hgives, hw⟩)
    · exact ⟨c, .inl ⟨hp, rfl⟩⟩
    · exact ⟨_, .inr ⟨w, x, hgives, hw, rfl⟩⟩

/-! ### All lines -/

/-- Of the lines, the last one for the wire gives it this value. -/
def LastGives (lines : List (List Char)) (w : Nat) (x : Bool) : Prop :=
  ∃ before line after, lines = before ++ line :: after ∧ Gives line w x ∧
    ∀ l ∈ after, ∀ y, ¬ Gives l w y

/-- The second circuit is the first one with the values that the lines give: nothing else is changed, and
of several lines for a wire the last one counts. -/
structure Loaded (lines : List (List Char)) (c d : Circuit) : Prop where
  same : SameStructure c d
  given : ∀ w x, LastGives lines w x → d.wires.raw? w = some x
  kept : ∀ w, (∀ line ∈ lines, ∀ x, ¬ Gives line w x) → d.wires.raw? w = c.wires.raw? w

namespace Loaded

variable {ls ms : List (List Char)}

theorem nil (c : Circuit) : Loaded [] c c where
  same := .refl c
  given w x h := by
    obtain ⟨before, line, after, hnil, -⟩ := h
    exact absurd hnil (by simp)
  kept _ _ := rfl

theorem append (h : Loaded ls c d) (h' : Loaded ms d e) : Loaded (ls ++ ms) c e where
  same := h.same.trans h'.same
  given w x hlast := by
    obtain ⟨before, line, after, hsplit, hgives, hafter⟩ := hlast
    rcases List.append_eq_append_iff.mp hsplit with ⟨rest, hbefore, hms⟩ | ⟨rest, hls, hrest⟩
    · exact h'.given w x ⟨rest, line, after, hms, hgives, hafter⟩
    · cases rest with
      | nil => exact h'.given w x ⟨[], line, after, hrest.symm, hgives, hafter⟩
      | cons l rest =>
        obtain ⟨rfl, rfl⟩ := List.cons.inj hrest
        rw [h'.kept w fun l hl => hafter l (List.mem_append_right _ hl)]
        exact h.given w x ⟨before, _, rest, hls, hgives,
          fun l hl => hafter l (List.mem_append_left _ hl)⟩
  kept w hnone := by
    rw [h'.kept w fun l hl => hnone l (List.mem_append_right _ hl),
      h.kept w fun l hl => hnone l (List.mem_append_left _ hl)]

end Loaded

theorem loaded_loadLine {n : Nat} (h : loadLine c (line, n) = .ok d) : Loaded [line] c d := by
  rw [loadLine_ok_iff] at h
  simp only [ofLine_eq_none_iff, ofLine_eq_some_iff] at h
  rcases h with ⟨hp, rfl⟩ | ⟨w, x, hgives, hw, rfl⟩
  · refine ⟨.refl d, fun w x hlast => ?_, fun _ _ => rfl⟩
    obtain ⟨before, l, after, hsplit, hgives, -⟩ := hlast
    have hmem : l ∈ [line] := by rw [hsplit]; simp
    rw [List.mem_singleton.mp hmem] at hgives
    exact absurd hp hgives.1
  · refine ⟨⟨fun v => WireStore.polarity?_write .., rfl⟩, fun v y hlast => ?_, fun v hnone => ?_⟩
    · obtain ⟨before, l, after, hsplit, hgives', -⟩ := hlast
      have hmem : l ∈ [line] := by rw [hsplit]; simp
      rw [List.mem_singleton.mp hmem] at hgives'
      obtain ⟨rfl, rfl⟩ := hgives.unique hgives'
      exact WireStore.raw?_write_self hw x
    · refine WireStore.raw?_write_of_ne (fun he => ?_) x
      exact hnone line (List.mem_cons_self ..) x (he ▸ hgives)

theorem Acceptable.sameStructure (h : SameStructure c d) : Acceptable d line ↔ Acceptable c line := by
  simp only [Acceptable, h.contains]

/-- What is loaded line by line is loaded. -/
theorem loaded_run {ls : List (List Char)} {n : Nat}
    (h : runSteps loadLine c (ls.zipIdx n) = ⟨d, none⟩) :
    Loaded ls c d ∧ ∀ l ∈ ls, Acceptable c l := by
  induction ls generalizing c n with
  | nil =>
    cases h
    exact ⟨.nil d, nofun⟩
  | cons l rest ih =>
    rw [List.zipIdx_cons] at h
    obtain ⟨c', hl, h⟩ := runSteps_cons_done_iff.mp h
    obtain ⟨hrest, hacc⟩ := ih h
    have hone := loaded_loadLine hl
    refine ⟨hone.append hrest,
      List.forall_mem_cons.mpr ⟨exists_loadLine_iff.mp ⟨c', hl⟩, fun l' hl' => ?_⟩⟩
    exact (Acceptable.sameStructure hone.same).mp (hacc l' hl')

/-- Acceptable lines are all loaded. -/
theorem run_of_acceptable {ls : List (List Char)} {n : Nat} (h : ∀ l ∈ ls, Acceptable c l) :
    ∃ d, runSteps loadLine c (ls.zipIdx n) = ⟨d, none⟩ := by
  induction ls generalizing c n with
  | nil => exact ⟨c, rfl⟩
  | cons l rest ih =>
    obtain ⟨hl, hrest⟩ := List.forall_mem_cons.mp h
    obtain ⟨c', hc'⟩ := exists_loadLine_iff.mpr hl
    have hsame := (loaded_loadLine (n := n) hc').same
    rw [List.zipIdx_cons, runSteps_cons_ok hc']
    exact ih fun l' hl' => (Acceptable.sameStructure hsame).mpr (hrest l' hl')

/-- A loading that fails has loaded the lines before a bad one. -/
theorem load_failed {text : String} {e : CircuitError} (h : load c text = ⟨d, some e⟩) :
    ∃ before line after cause, lines text.toList = before ++ line :: after ∧
      runSteps loadLine c (before.zipIdx 1) = ⟨d, none⟩ ∧ Bad d line cause ∧
      e = .atLine (before.length + 1) cause := by
  obtain ⟨before, ⟨line, k⟩, after, hsplit, hrun, herror⟩ := runSteps_failed h
  obtain ⟨head, rest, htext, rfl, hk, -⟩ := numberedLines_eq_append_iff.mp hsplit
  obtain ⟨cause, hcause, rfl⟩ := mapError_error_iff.mp herror
  exact ⟨head, line, rest, cause, htext, hrun, assignLine_error_iff.mp hcause, by rw [hk]⟩

theorem Bad.sameStructure {cause : Cause} (h : SameStructure c d) (hb : Bad d line cause) :
    Bad c line cause := by
  cases hb with
  | index hp hwords hindex => exact .index hp hwords hindex
  | value hp hwords hn hvalue => exact .value hp hwords hn hvalue
  | wire hgives hw => exact .wire hgives (h.contains _ ▸ hw)

/-! ### The values of the circuit itself -/

/-- Writing what is there changes nothing. -/
theorem writeAll_of_raw? {s : WireStore} {values : List (Nat × Bool)}
    (h : ∀ p ∈ values, s.raw? p.1 = some p.2) : writeAll s values = s := by
  induction values with
  | nil => rfl
  | cons p rest ih =>
    obtain ⟨hp, hrest⟩ := List.forall_mem_cons.mp h
    rw [writeAll, List.foldl_cons, WireStore.write_of_raw? hp]
    exact ih hrest

end Values

/-! ### The numbers of wires -/

/-- A statement names its wire by a number that can be read. -/
theorem Statement.wire_lt_of_ofLine {s : Statement} (h : ofLine line = .ok (some s)) :
    2 * s.wire < numberLimit := by
  have hspell := spellable_of_ofLine h
  match s with
  | .input l => exact Nat.lt_of_le_of_lt (Nat.le_add_right ..) hspell
  | .output l _ => exact Nat.lt_of_le_of_lt (Nat.le_add_right ..) hspell
  | .gate _ _ _ _ => exact hspell.2.1

namespace Circuit

/-- A change adds no wire to a circuit that was read. -/
theorem Change.contains_netlist {written : Nat → Prop} (step : Change written c d)
    (ho : c.origin = .netlist) (w : Nat) : d.wires.contains w = c.wires.contains w := by
  cases step with
  | growth hn g =>
    obtain ⟨can, -⟩ := g.issues
    exact absurd ho can.origin
  | output hc hout => rfl
  | write value hw hc => exact WireStore.contains_write ..

/-- The wires of a circuit that was read can be named again. -/
theorem Reachable.wire_lt_of_netlist (h : Reachable c) :
    c.origin = .netlist → ∀ w, c.wires.contains w = true → 2 * w < numberLimit := by
  induction h with
  | empty => nofun
  | parsed hp =>
    intro _ w hw
    obtain ⟨ss, hss, -, hdesc⟩ := Netlist.parse_ok hp
    obtain ⟨found, hfound, rfl⟩ := Netlist.statementsOf_ok_iff.mp hss
    obtain ⟨s, hs, rfl⟩ := List.mem_map.mp (hdesc.contains_iff.mp hw)
    have hmem : some s ∈ found := by simpa using hs
    obtain ⟨line, hline⟩ := exists_of_mapM_ok hfound hmem
    exact Statement.wire_lt_of_ofLine hline
  | operated op _ hop ih =>
    refine Change.preserves (P := fun e => e.origin = .netlist →
      ∀ w, e.wires.contains w = true → 2 * w < numberLimit) (fun _ _ step hP ho w hw => ?_)
      (changes_run op hop) ih
    have ho := step.netlist_iff.mp ho
    exact hP ho w (step.contains_netlist ho w ▸ hw)

/-- So can those of a circuit that is built up, while there are not too many. -/
theorem Reachable.wire_lt (h : Reachable c)
    (hlimit : c.origin ≠ .netlist → c.numWires ≤ 9223372036854775808)
    (hw : c.wires.contains w = true) : 2 * w < numberLimit := by
  by_cases ho : c.origin = .netlist
  · exact h.wire_lt_of_netlist ho w hw
  · have hnext := (h.sound.issued ho w).mp hw
    have hle := hlimit ho
    rw [h.sound.numWires_eq ho] at hle
    rw [numberLimit]
    omega

end Circuit

namespace Values

/-- The circuit's own value file changes nothing. -/
theorem load_own (h : Reachable c)
    (hlimit : c.origin ≠ .netlist → c.numWires ≤ 9223372036854775808) :
    load c (render c) = ⟨c, none⟩ := by
  have hraw : ∀ p ∈ assignments c, c.wires.raw? p.1 = some p.2 := fun p hp => (mem_assignments.mp hp).1
  have hload := load_render (r := c) (c := c) fun p hp => by
    obtain ⟨cell, hcell, -⟩ := Option.bind_eq_some_iff.mp (hraw p hp)
    have hreg := WireStore.contains_iff.mpr ⟨cell, hcell⟩
    exact ⟨hreg, h.wire_lt hlimit hreg⟩
  rw [hload, writeAll_of_raw? hraw]

/-- Loading succeeds exactly if every line can be loaded, and then the last line for a wire counts and
nothing but raw values is changed. Otherwise the error is that of the first bad line, and the circuit is
the one that the lines before it lead to. Loading its own value file does not change a circuit, if its
wires can be named by numbers that can be read; so those of a netlist can. -/
theorem load_writes_last (h : Reachable c) (text : String) :
    ((load c text).failure = none ↔ ∀ line ∈ lines text.toList, Acceptable c line) ∧
      (∀ d, load c text = ⟨d, none⟩ → Loaded (lines text.toList) c d) ∧
      (∀ d e, load c text = ⟨d, some e⟩ →
        ∃ before line after cause, lines text.toList = before ++ line :: after ∧
          (∀ l ∈ before, Acceptable c l) ∧ Bad c line cause ∧
          e = .atLine (before.length + 1) cause ∧
          (∃ head rest, text = head ++ rest ∧ lines head.toList = before) ∧
          ∀ text' : String, lines text'.toList = before → load c text' = ⟨d, none⟩) ∧
      ((c.origin ≠ .netlist → c.numWires ≤ 9223372036854775808) →
        load c (render c) = ⟨c, none⟩) := by
  refine ⟨⟨fun hnone => ?_, fun hacc => ?_⟩, fun d hd => (loaded_run hd).1, fun d e hd => ?_, load_own h⟩
  · have hrun : load c text = ⟨(load c text).state, none⟩ := by rw [← hnone]
    exact (loaded_run hrun).2
  · obtain ⟨d, hd⟩ := run_of_acceptable (n := 1) hacc
    exact congrArg Attempt.failure hd
  · obtain ⟨before, line, after, cause, htext, hrun, hbad, rfl⟩ := load_failed hd
    obtain ⟨hloaded, hacc⟩ := loaded_run hrun
    obtain ⟨head, rest, hsplit, hhead⟩ := exists_lines_eq htext
    refine ⟨before, line, after, cause, htext, hacc, hbad.sameStructure hloaded.same, rfl, ?_, ?_⟩
    · refine ⟨String.ofList head, String.ofList rest, ?_, by rwa [String.toList_ofList]⟩
      rw [← String.ofList_append, ← hsplit, String.ofList_toList]
    · rintro text' rfl
      exact hrun

/-- A netlist of one input, which is given two values before a wire that it does not have. -/
theorem load_writes_last_before_unknown :
    ∃ c d, Reachable c ∧ load c "0 1\n1 0\n4 1\n" = ⟨d, some (.atLine 3 (.wire (.notFound 2)))⟩ ∧
      load c "0 1\n1 0\n" = ⟨d, none⟩ ∧ d.wires.raw? 0 = some false ∧ load d (render d) = ⟨d, none⟩ := by
  obtain ⟨c, hc, d, hd, hraw⟩ : ∃ c, Netlist.parse "I:0\n" = .ok c ∧
      ∃ d, load c "0 1\n1 0\n4 1\n" = ⟨d, some (.atLine 3 (.wire (.notFound 2)))⟩ ∧
        d.wires.raw? 0 = some false := ⟨_, rfl, _, rfl, rfl⟩
  have h : Reachable c := .parsed hc
  have hstate : (load c "0 1\n1 0\n4 1\n").state = d := congrArg Attempt.state hd
  have hreach : Reachable d := hstate ▸ h.load _
  obtain ⟨-, -, hfail, -⟩ := load_writes_last h "0 1\n1 0\n4 1\n"
  obtain ⟨before, line, after, cause, htext, -, -, hline, -, hprefix⟩ := hfail d _ hd
  have hlength : before.length = 2 := by
    have hthree := Option.some.inj (congrArg CircuitError.line hline)
    omega
  have hbefore : lines "0 1\n1 0\n".toList = before := by
    have htake := congrArg (List.take 2) htext
    rw [← hlength, List.take_left, hlength] at htake
    exact htake
  obtain ⟨-, -, -, hown⟩ := load_writes_last hreach ""
  have hnetlist : d.origin = .netlist := by
    rw [← hstate, (sameStructure_load c _).rest]
    obtain ⟨ss, -, -, hdesc⟩ := Netlist.parse_ok hc
    exact hdesc.origin
  exact ⟨c, d, h, hd, hprefix _ hbefore, hraw, hown fun ho => absurd hnetlist ho⟩

end Values

end GateNet
