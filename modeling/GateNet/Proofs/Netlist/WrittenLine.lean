import Mathlib.Data.List.Induction
import Mathlib.Data.Nat.Digits.Defs
import GateNet.Proofs.Netlist.RoundTrip
import GateNet.Proofs.Text.Token

/-!
Lines as they are written. The index of a wire has 64 bits exactly if the wire is below two to the 63, and
a token is read as a number exactly if it shows one of 64 bits in decimal notation. So a statement is read
from some line exactly if it can be spelled; its plain spelling is then such a line, and every line that
is written for a circuit is read back as what it was written for.
-/

namespace GateNet

open Circuit Netlist Text

variable {token line : List Char} {n : Nat}

/-! ### Decimal notation -/

namespace Text

/-- The digit that a character shows. -/
def digitValue (c : Char) : Nat := c.toNat - '0'.toNat

/-- The characters show the number in decimal notation: they are ASCII digits, one at least, and the last
one counts the units. -/
structure IsDecimal (run : List Char) (n : Nat) : Prop where
  ne_nil : run ≠ []
  digits : ∀ c ∈ run, '0' ≤ c ∧ c ≤ '9'
  value : Nat.ofDigits 10 (run.reverse.map digitValue) = n

theorem isDigit_iff {c : Char} : c.isDigit = true ↔ '0' ≤ c ∧ c ≤ '9' := by
  simp [Char.isDigit, Char.le_def]

/-- Taking in the digits from the first one on gives what they are worth at their places. -/
theorem ofDigitChars_eq_ofDigits (run : List Char) :
    Nat.ofDigitChars 10 run 0 = Nat.ofDigits 10 (run.reverse.map digitValue) := by
  induction run using List.reverseRecOn with
  | nil => rfl
  | append_singleton run c ih =>
    rw [Nat.ofDigitChars_append, ih, Nat.ofDigitChars_cons, Nat.ofDigitChars_nil,
      List.reverse_concat, List.map_cons, Nat.ofDigits_cons, Nat.add_comm]
    rfl

/-- A token stands for a number that it shows in decimal notation, after a plus sign or not. -/
theorem denotes_iff :
    Denotes token n ↔
      n < 2 ^ 64 ∧ (IsDecimal token n ∨ ∃ run, token = '+' :: run ∧ IsDecimal run n) := by
  have hdecimal : ∀ run, IsDecimal run n ↔
      run ≠ [] ∧ (∀ c ∈ run, c.isDigit = true) ∧ Nat.ofDigitChars 10 run 0 = n := by
    intro run
    simp only [isDigit_iff, ofDigitChars_eq_ofDigits]
    exact ⟨fun h => ⟨h.ne_nil, h.digits, h.value⟩, fun ⟨hne, hdigits, hvalue⟩ => ⟨hne, hdigits, hvalue⟩⟩
  constructor
  · rintro ⟨run, htoken, hne, hdigits, hvalue, hlimit⟩
    have hrun := (hdecimal run).mpr ⟨hne, hdigits, hvalue⟩
    refine ⟨hlimit, ?_⟩
    rcases htoken with rfl | rfl
    · exact .inl hrun
    · exact .inr ⟨run, rfl, hrun⟩
  · rintro ⟨hlimit, hrun | ⟨run, rfl, hrun⟩⟩
    · obtain ⟨hne, hdigits, hvalue⟩ := (hdecimal token).mp hrun
      exact ⟨token, .inl rfl, hne, hdigits, hvalue, hlimit⟩
    · obtain ⟨hne, hdigits, hvalue⟩ := (hdecimal run).mp hrun
      exact ⟨run, .inr rfl, hne, hdigits, hvalue, hlimit⟩

end Text

/-! ### Indices of 64 bits -/

namespace Literal

theorem index_lt_iff {l : Literal} : l.index < numberLimit ↔ l.wire < 2 ^ 63 := by
  have hbit : l.inverted.toNat ≤ 1 := Bool.toNat_le l.inverted
  rw [index, numberLimit]
  omega

theorem ofIndex_wire_lt_iff {i : Nat} : (ofIndex i).wire < 2 ^ 63 ↔ i < numberLimit := by
  rw [← index_lt_iff, index_ofIndex]

end Literal

/-! ### Statements that are read -/

theorem Token.code_of_function {f : GateFunction} (h : Token.function token = .ok f) :
    f.code.val ≠ 0 := by
  obtain ⟨n, -, hf⟩ := bind_ok_iff.mp h
  rw [functionOfCode] at hf
  split at hf
  · split at hf
    · cases hf
    · rename_i hcode
      cases hf
      exact hcode
  · cases hf

namespace Statement

theorem index_lt_of_literal {l : Literal} (h : literal token = .ok l) : l.index < numberLimit := by
  obtain ⟨n, hn, hl⟩ := bind_ok_iff.mp h
  obtain ⟨-, -, -, -, -, hlimit⟩ := Token.number_ok_iff.mp hn
  cases pure_ok_iff.mp hl
  rwa [Literal.index_ofIndex]

theorem drivenWire_ok_iff {i w : Nat} : drivenWire i = .ok w ↔ i = 2 * w := by
  rw [drivenWire]
  split
  · simp only [reduceCtorEq, false_iff]
    omega
  · rw [Except.ok.injEq]
    omega

theorem spellable_of_ofDeclaration {s : Statement} (h : ofDeclaration token = .ok (some s)) :
    s.Spellable := by
  rw [ofDeclaration] at h
  split at h
  · obtain ⟨l, hl, ⟨⟩⟩ := bind_ok_iff.mp h
    exact index_lt_of_literal hl
  · obtain ⟨l, hl, ⟨⟩⟩ := bind_ok_iff.mp h
    exact index_lt_of_literal hl
  · obtain ⟨l, hl, h⟩ := bind_ok_iff.mp h
    obtain ⟨seed, -, ⟨⟩⟩ := bind_ok_iff.mp h
    exact index_lt_of_literal hl
  · cases h
  · cases h
  · cases h

theorem spellable_of_ofGate {out function a b : List Char} {s : Statement}
    (h : ofGate out function a b = .ok (some s)) : s.Spellable := by
  obtain ⟨f, hf, h⟩ := bind_ok_iff.mp h
  obtain ⟨i, hi, h⟩ := bind_ok_iff.mp h
  obtain ⟨w, hw, h⟩ := bind_ok_iff.mp h
  obtain ⟨la, ha, h⟩ := bind_ok_iff.mp h
  obtain ⟨lb, hb, ⟨⟩⟩ := bind_ok_iff.mp h
  obtain ⟨-, -, -, -, -, hlimit⟩ := Token.number_ok_iff.mp hi
  rw [drivenWire_ok_iff.mp hw] at hlimit
  exact ⟨Token.code_of_function hf, hlimit, index_lt_of_literal ha, index_lt_of_literal hb⟩

/-- A statement that is read from a line can be spelled. -/
theorem spellable_of_ofLine {s : Statement} (h : ofLine line = .ok (some s)) : s.Spellable := by
  rw [ofLine] at h
  split at h
  · cases h
  · split at h
    · exact spellable_of_ofDeclaration h
    · exact spellable_of_ofGate h
    · cases h

end Statement

/-! ### The lines of a circuit -/

variable {c : Circuit}

/-- The lines of a value file are one for each known wire that no gate drives. -/
theorem Values.mapM_ofLine_render (h : ∀ p ∈ assignments c, 2 * p.1 < numberLimit) :
    (lines (Values.render c).toList).mapM Values.ofLine = .ok ((assignments c).map some) := by
  rw [Values.lines_render]
  exact mapM_map_ok fun p hp => ofLine_lineText (h p hp) p.2

/-- The wires of value lines are registered, so their indices can be spelled. -/
theorem Values.wire_lt_of_assignments (h : ∀ w, c.wires.contains w = true → w < 2 ^ 63) :
    ∀ p ∈ assignments c, 2 * p.1 < numberLimit := by
  rintro ⟨w, x⟩ hp
  obtain ⟨hx, -⟩ := mem_assignments.mp hp
  obtain ⟨cell, hc, -⟩ := Option.bind_eq_some_iff.mp hx
  have hw := h w (WireStore.contains_iff.mpr ⟨cell, hc⟩)
  rw [numberLimit]
  omega

namespace Statement

/-- The code of literals by indices is exact at 64 bits, a statement is read back from its plain spelling,
which is read whenever any line is read as the statement, and numbers are read exactly from their decimal
notation. So every line that is written for a circuit is read back as what it was written for. -/
theorem plain_spelling_reads_back :
    (∀ l : Literal, l.wire < 2 ^ 63 → l.index < 2 ^ 64 ∧ Literal.ofIndex l.index = l) ∧
    (∀ i < 2 ^ 64, (Literal.ofIndex i).wire < 2 ^ 63 ∧ (Literal.ofIndex i).index = i) ∧
    (∀ l : Literal, l.wire < 2 ^ 63 →
      ofLine s!"I:{l.index}".toList = .ok (some (.input l)) ∧
      ofLine s!"O:{l.index}".toList = .ok (some (.output l none)) ∧
      ∀ seed, ofLine s!"O:{l.index}:{bitDigit seed}".toList = .ok (some (.output l (some seed)))) ∧
    (∀ f out a b, f.code.val ≠ 0 → out < 2 ^ 63 → a.wire < 2 ^ 63 → b.wire < 2 ^ 63 →
      ofLine s!"{2 * out} {f.code.val} {a.index} {b.index}".toList = .ok (some (.gate f out a b))) ∧
    (∀ line s, ofLine line = .ok (some s) → ofLine s.text.toList = .ok (some s)) ∧
    (∀ token n, Token.number token = .ok n ↔
      n < 2 ^ 64 ∧ (IsDecimal token n ∨ ∃ run, token = '+' :: run ∧ IsDecimal run n)) ∧
    (∀ c, Reachable c → (∀ w, c.wires.contains w = true → w < 2 ^ 63) →
      (lines (Values.render c).toList).mapM Values.ofLine =
        .ok ((Values.assignments c).map some) ∧
      ((∀ w g, c.gate? w = some g → g.function.code.val ≠ 0) →
        (lines (Netlist.render c).toList).mapM ofLine = .ok (none :: (statements c).map some))) := by
  refine ⟨fun l hl => ?_, fun i hi => ?_, fun l hl => ?_, fun f out a b hf hout ha hb => ?_,
    fun line s hs => ?_, fun token n => ?_, fun c hc hlimit => ?_⟩
  · exact ⟨Literal.index_lt_iff.mpr hl, Literal.ofIndex_index l⟩
  · exact ⟨Literal.ofIndex_wire_lt_iff.mpr hi, Literal.index_ofIndex i⟩
  · have hindex := Literal.index_lt_iff.mpr hl
    exact ⟨ofLine_text (s := .input l) hindex, ofLine_text (s := .output l none) hindex,
      fun seed => ofLine_text (s := .output l (some seed)) hindex⟩
  · have hplain : 2 * out < numberLimit := by
      rw [numberLimit]
      omega
    exact ofLine_text (s := .gate f out a b)
      ⟨hf, hplain, Literal.index_lt_iff.mpr ha, Literal.index_lt_iff.mpr hb⟩
  · exact ofLine_text (spellable_of_ofLine hs)
  · rw [Token.number_ok_iff, denotes_iff]
  · refine ⟨Values.mapM_ofLine_render (Values.wire_lt_of_assignments hlimit), fun hcode => ?_⟩
    refine Netlist.mapM_ofLine_render (hc.wellFormed.spellable hcode fun w hw => ?_)
    have := hlimit w hw
    rw [numberLimit]
    omega

/-- A circuit with an input of known value and an inverted gate, and what is written for it. -/
theorem exists_inverted : ∃ c, Reachable c ∧ (∀ w, c.wires.contains w = true → w < 2 ^ 63) ∧
    (∀ w g, c.gate? w = some g → g.function.code.val ≠ 0) ∧ Values.assignments c = [(0, true)] ∧
    statements c = [.input ⟨0, false⟩, .input ⟨1, false⟩, .output ⟨3, true⟩ none,
      .gate .xor 2 ⟨0, false⟩ ⟨1, false⟩, .gate .xor 3 ⟨0, false⟩ ⟨1, false⟩] := by
  obtain ⟨c, hc, hwires, hgates, hvalues, hstatements⟩ : ∃ c, Reachable c ∧
      (c.wires.entries.all fun p => p.1 < 2 ^ 63) = true ∧
      (c.gateList.all fun g => g.function.code.val ≠ 0) = true ∧ Values.assignments c = [(0, true)] ∧
      statements c = [.input ⟨0, false⟩, .input ⟨1, false⟩, .output ⟨3, true⟩ none,
        .gate .xor 2 ⟨0, false⟩ ⟨1, false⟩, .gate .xor 3 ⟨0, false⟩ ⟨1, false⟩] := by
    have hinputs := (Reachable.empty.operated (.build (.issueInputs 2)) rfl).operated
      (.assign 0 true) rfl
    have hgates := (hinputs.operated (.build (.addGate .xor 0 1)) rfl).operated
      (.build (.invert 2)) rfl
    exact ⟨_, hgates.operated (.addOutput 3) rfl, rfl, rfl, rfl, rfl⟩
  refine ⟨c, hc, fun w hw => ?_, fun w g hg => ?_, hvalues, hstatements⟩
  · obtain ⟨cell, hcell⟩ := WireStore.contains_iff.mp hw
    simpa using List.all_eq_true.mp hwires (w, cell)
      (Std.ExtTreeMap.mem_toList_iff_getElem?_eq_some.mpr hcell)
  · simpa using List.all_eq_true.mp hgates g (Circuit.mem_gateList.mpr ⟨w, hg⟩)

/-- The highest wire that can be written, read inverted, has the highest number that can be read. -/
theorem plain_spelling_reads_back_highest :
    (Literal.mk 9223372036854775807 true).index < 2 ^ 64 ∧
    (Literal.ofIndex 18446744073709551615).wire < 2 ^ 63 ∧
    ofLine "O:18446744073709551615:1".toList =
      .ok (some (.output ⟨9223372036854775807, true⟩ (some true))) ∧
    ofLine "18446744073709551614 15 18446744073709551613 1".toList =
      .ok (some (.gate ⟨15⟩ 9223372036854775807 ⟨9223372036854775806, true⟩ ⟨0, true⟩)) ∧
    ofLine " I:+03 ".toList = .ok (some (.input ⟨1, true⟩)) ∧
    ofLine "I:3".toList = .ok (some (.input ⟨1, true⟩)) ∧
    Token.number "+018446744073709551615".toList = .ok 18446744073709551615 ∧
    (∀ n, Token.number "18446744073709551616".toList ≠ .ok n) ∧
    ∃ c, Reachable c ∧ (lines (Values.render c).toList).mapM Values.ofLine = .ok [some (0, true)] ∧
      (lines (Netlist.render c).toList).mapM ofLine =
        .ok [none, some (.input ⟨0, false⟩), some (.input ⟨1, false⟩), some (.output ⟨3, true⟩ none),
          some (.gate .xor 2 ⟨0, false⟩ ⟨1, false⟩), some (.gate .xor 3 ⟨0, false⟩ ⟨1, false⟩)] := by
  obtain ⟨hindex, hwire, hdeclared, hgate, hagain, hnumber, hwritten⟩ := plain_spelling_reads_back
  obtain ⟨c, hc, hlimit, hcode, hvalues, hstatements⟩ := exists_inverted
  obtain ⟨hloaded, hread⟩ := hwritten c hc hlimit
  rw [hvalues] at hloaded
  rw [hstatements] at hread
  have hhighest : IsDecimal "018446744073709551615".toList 18446744073709551615 :=
    ⟨nofun, fun c hc => isDigit_iff.mp (List.all_eq_true.mp rfl c hc), rfl⟩
  have hbeyond : ∀ n, Token.number "18446744073709551616".toList ≠ .ok n := by
    intro n hn
    obtain ⟨hlt, hrun | ⟨run, hplus, -⟩⟩ := (hnumber _ n).mp hn
    · have hvalue : 18446744073709551616 = n := hrun.value
      omega
    · cases (List.cons.inj hplus).1
  exact ⟨(hindex _ (by decide)).1, (hwire _ (by decide)).1,
    (hdeclared ⟨9223372036854775807, true⟩ (by decide)).2.2 true,
    hgate ⟨15⟩ 9223372036854775807 ⟨9223372036854775806, true⟩ ⟨0, true⟩ (by decide) (by decide)
      (by decide) (by decide),
    rfl, hagain " I:+03 ".toList _ rfl, (hnumber _ _).mpr ⟨by decide, .inr ⟨_, rfl, hhighest⟩⟩,
    hbeyond, c, hc, hloaded, hread hcode⟩

end Statement

end GateNet
