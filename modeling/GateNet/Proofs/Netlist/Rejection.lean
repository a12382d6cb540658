import GateNet.Proofs.Netlist.Misspelling
import GateNet.Proofs.Netlist.Refusal
import GateNet.Proofs.Text.Split

/-!
Which error a rejected netlist is reported with. The lines before the first faulty one declare their
statements, so whether a line is at fault is a matter of these statements and of the line, and what
follows it does not count. If no line is at fault, something that the whole text leaves open is. No
other error exists; in particular a wire that is looked up while statements are declared, or when the
outputs are checked at the end, is always found.
-/

namespace GateNet

open Circuit Statement

namespace Netlist

variable {ss : List Statement} {c : Circuit} {line : List Char} {lines : List (List Char)} {cause : Cause}

/-- The lines say the statements, and these can be declared one after the other. -/
structure Declares (lines : List (List Char)) (ss : List Statement) : Prop where
  read : ∃ found, lines.mapM Statement.ofLine = .ok found ∧ found.filterMap id = ss
  admissible : AdmissibleAfter [] ss
  steady : ∀ w, changes (polarities ss w) ≤ 1

/-- Why a line cannot be read after some statements: it is none itself, or the statement on it cannot be
declared after them. -/
inductive Faulty (before : List Statement) (line : List Char) : Cause → Prop
  | misspelled {cause : Cause} : Misspelled line cause → Faulty before line cause
  | refused {s : Statement} {cause : Cause} : Statement.ofLine line = .ok (some s) →
      Refused before s cause → Faulty before line cause

/-- Why a text is no netlist: a line is at fault and the lines before it are not, or no line is and the
statements leave something open. -/
inductive Rejected (text : String) : CircuitError → Prop
  | atLine {before after : List (List Char)} {line : List Char} {ss : List Statement} {cause : Cause} :
      Text.lines text.toList = before ++ line :: after → Declares before ss → Faulty ss line cause →
      Rejected text (.atLine (before.length + 1) cause)
  | general {ss : List Statement} {cause : Cause} : Declares (Text.lines text.toList) ss →
      Incomplete ss cause → Rejected text (.general cause)

/-- The causes that a line can be at fault for. -/
def concernsLine : Cause → Bool
  | .invalidToken _ | .functionOutOfRange _ | .invertedGateOutput _ | .nonBinaryValue _ => true
  | .duplicateOutput _ | .duplicateGate _ | .gateDrivesInput _ | .missingInput _ _ => true
  | .wire (.alreadyExists _) | .wire (.doubleInversion _) => true
  | _ => false

/-- The causes that only a whole text can be at fault for. -/
def concernsText : Cause → Bool
  | .undrivenOutput _ | .outOfOrder _ _ => true
  | _ => false

theorem Refused.kind {s : Statement} (h : Refused ss s cause) : cause.kind = .structural := by
  cases h <;> rfl

theorem Faulty.concernsLine (h : Faulty ss line cause) : concernsLine cause = true := by
  cases h with
  | misspelled h =>
    cases h with
    | declaration _ _ h => cases h <;> rfl
    | gate _ _ h => cases h <;> rfl
  | refused _ h => cases h <;> rfl

/-- A malformed cause is one of the line alone. -/
theorem Faulty.kind_iff (h : Faulty ss line cause) :
    cause.kind = .malformed ↔ Misspelled line cause := by
  refine ⟨fun hk => ?_, Misspelled.kind⟩
  cases h with
  | misspelled h => exact h
  | refused _ h =>
    rw [h.kind] at hk
    cases hk

theorem Incomplete.concernsText (h : Incomplete ss cause) : concernsText cause = true := by
  cases h <;> rfl

/-! ### Lines -/

/-- Lines that are read without an error declare statements, and the circuit shows these. -/
theorem declares_of_readLines
    (h : (lines.zipIdx 1).foldlM readLine { origin := .netlist } = .ok c) :
    ∃ ss, Declares lines ss ∧ Reads ss c := by
  obtain ⟨found, hfound, hd⟩ := readLines_ok_iff.mp h
  obtain ⟨adm, hreads⟩ := Reads.empty.declareAll hd
  exact ⟨_, ⟨⟨found, hfound, rfl⟩, adm, hreads.steady⟩, hreads⟩

theorem Declares.readLines (h : Declares lines ss) :
    ∃ c, (lines.zipIdx 1).foldlM readLine { origin := .netlist } = .ok c ∧ Reads ss c := by
  obtain ⟨found, hfound, rfl⟩ := h.read
  obtain ⟨c, hc⟩ := Reads.empty.can_declareAll h.admissible h.steady
  exact ⟨c, readLines_ok_iff.mpr ⟨found, hfound, hc⟩, (Reads.empty.declareAll hc).2⟩

/-- A line is read with an error exactly if it is faulty after the statements before it. -/
theorem Reads.declareLine_error_iff (h : Reads ss c) :
    declareLine c line = .error cause ↔ Faulty ss line cause := by
  rw [declareLine, bind_error_iff, ofLine_error_iff]
  constructor
  · rintro (hm | ⟨_ | s, hs, he⟩)
    · exact .misspelled hm
    · cases he
    · exact .refused hs (h.declare_error_iff.mp he)
  · intro hf
    cases hf with
    | misspelled hm => exact .inl hm
    | refused hs hr => exact .inr ⟨_, hs, h.declare_error_iff.mpr hr⟩

/-! ### Texts -/

variable {text : String} {e : CircuitError}

/-- What a faulty line does to its text does not depend on the lines after it. -/
theorem parse_of_faulty {before after : List (List Char)}
    (htext : Text.lines text.toList = before ++ line :: after) (hbefore : Declares before ss)
    (hline : Faulty ss line cause) :
    parse text = .error (.atLine (before.length + 1) cause) := by
  obtain ⟨c, hc, hreads⟩ := hbefore.readLines
  have hsplit : Text.numberedLines text =
      before.zipIdx 1 ++ (line, before.length + 1) :: after.zipIdx (before.length + 2) :=
    Text.numberedLines_eq_append_iff.mpr ⟨before, after, htext, rfl, rfl, rfl⟩
  have hstop : (Text.numberedLines text).foldlM readLine { origin := .netlist } =
      .error (.atLine (before.length + 1) cause) :=
    foldlM_error_iff.mpr ⟨_, _, _, c, hsplit, hc,
      mapError_error_iff.mpr ⟨cause, hreads.declareLine_error_iff.mpr hline, rfl⟩⟩
  exact bind_error_iff.mpr (.inl hstop)

theorem parse_of_incomplete (h : Declares (Text.lines text.toList) ss) (hopen : Incomplete ss cause) :
    parse text = .error (.general cause) := by
  obtain ⟨c, hc, hreads⟩ := h.readLines
  have hcheck : c.checkComplete.mapError CircuitError.general = .error (.general cause) :=
    mapError_error_iff.mpr ⟨cause, (hreads.checkComplete_error_iff h.admissible).mpr hopen, rfl⟩
  exact bind_error_iff.mpr (.inr ⟨c, hc, bind_error_iff.mpr (.inl hcheck)⟩)

theorem rejected_of_parse (h : parse text = .error e) : Rejected text e := by
  rw [parse, bind_error_iff] at h
  rcases h with h | ⟨c, hc, h⟩
  · -- the lines before the one at fault were read
    obtain ⟨before, ⟨line, k⟩, after, c, hsplit, hc, he⟩ := foldlM_error_iff.mp h
    obtain ⟨head, rest, htext, rfl, hk, -⟩ := Text.numberedLines_eq_append_iff.mp hsplit
    obtain ⟨cause, hcause, rfl⟩ := mapError_error_iff.mp he
    obtain ⟨ss, hss, hreads⟩ := declares_of_readLines hc
    rw [hk]
    exact .atLine htext hss (hreads.declareLine_error_iff.mp hcause)
  · obtain ⟨ss, hss, hreads⟩ := declares_of_readLines hc
    rw [bind_error_iff] at h
    rcases h with h | ⟨-, -, h⟩
    · obtain ⟨cause, hcause, rfl⟩ := mapError_error_iff.mp h
      exact .general hss ((hreads.checkComplete_error_iff hss.admissible).mp hcause)
    · cases h

theorem parse_error_iff : parse text = .error e ↔ Rejected text e := by
  refine ⟨rejected_of_parse, fun h => ?_⟩
  cases h with
  | atLine htext hbefore hline => exact parse_of_faulty htext hbefore hline
  | general h hopen => exact parse_of_incomplete h hopen

/-- A text is rejected exactly if a line is the first that is at fault, or no line is and something is
open at the end, and the error says which. So a line is reported whatever follows it, with a cause that
is malformed if the line alone is to blame; an error without a line concerns outputs or the order of
gates; and no error is about a wire that is not found. -/
theorem parse_reports_first_fault (text : String) (e : CircuitError) :
    (parse text = .error e ↔ Rejected text e) ∧
      (parse text = .error e →
        (∀ w, e.cause ≠ .wire (.notFound w)) ∧
        (e.line = none → concernsText e.cause = true) ∧
        ∀ k, e.line = some k →
          concernsLine e.cause = true ∧
          (∃ before line after, Text.lines text.toList = before ++ line :: after ∧
            before.length + 1 = k ∧ (e.cause.kind = .malformed ↔ Misspelled line e.cause)) ∧
          ∀ text' : String, (Text.lines text'.toList).take k = (Text.lines text.toList).take k →
            parse text' = .error e) := by
  refine ⟨parse_error_iff, fun h => ?_⟩
  cases rejected_of_parse h with
  | @atLine before after line ss cause htext hbefore hline =>
    have hconcerns := hline.concernsLine
    refine ⟨?_, nofun, ?_⟩
    · rintro w rfl
      cases hconcerns
    rintro k ⟨⟩
    refine ⟨hconcerns, ⟨before, line, after, htext, rfl, hline.kind_iff⟩, fun text' htake => ?_⟩
    have hfirst : (Text.lines text'.toList).take (before.length + 1) = before ++ [line] := by
      rw [htake, htext, List.append_cons, List.take_append_of_le_length (by simp)]
      exact List.take_of_length_le (by simp)
    have htext' : Text.lines text'.toList =
        before ++ line :: (Text.lines text'.toList).drop (before.length + 1) := by
      rw [List.append_cons, ← hfirst, List.take_append_drop]
    exact parse_of_faulty htext' hbefore hline
  | general hss hopen =>
    have hconcerns := hopen.concernsText
    refine ⟨?_, fun _ => hconcerns, nofun⟩
    rintro w rfl
    cases hconcerns

theorem parse_reports_first_fault_of_two :
    ∀ text' : String, (Text.lines text'.toList).take 2 = ["I:0".toList, "4 8 0 2".toList] →
      parse text' = .error (.atLine 2 (.missingInput 2 1)) := by
  have h : parse "I:0\n4 8 0 2\nI:zero\n" = .error (.atLine 2 (.missingInput 2 1)) := rfl
  exact (((parse_reports_first_fault _ _).2 h).2.2 2 rfl).2.2

end Netlist

end GateNet
