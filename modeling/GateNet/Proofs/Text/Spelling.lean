import GateNet.Netlist.Reader
import GateNet.Proofs.Sequence
import GateNet.Proofs.Text.Split
import GateNet.Values

/-!
Every statement is read back from its plain spelling, and so is every line of a value file. So the
statements of a written netlist are those that were written.
-/

namespace GateNet

open Text

/-! ### Words without comment signs -/

/-- The character is neither blank nor a comment sign. -/
def isClean (c : Char) : Bool := !isBlank c && c != '#'

/-- A word without a comment sign. -/
structure IsClean (w : List Char) : Prop where
  ne_nil : w ≠ []
  all : w.all isClean = true

theorem IsClean.isWord {w : List Char} (h : IsClean w) : IsWord w := by
  refine ⟨h.ne_nil, fun c hc => ?_⟩
  have hclean := List.all_eq_true.mp h.all c hc
  rw [isClean, Bool.and_eq_true, Bool.not_eq_true'] at hclean
  exact hclean.1

theorem IsClean.append_left {v w : List Char} (h : IsClean w) (hv : v.all isClean = true) :
    IsClean (v ++ w) :=
  ⟨List.append_ne_nil_of_right_ne_nil v h.ne_nil, by rw [List.all_append, hv, h.all]; rfl⟩

theorem IsClean.append_right {v w : List Char} (h : IsClean v) (hw : w.all isClean = true) :
    IsClean (v ++ w) :=
  ⟨List.append_ne_nil_of_left_ne_nil h.ne_nil w, by rw [List.all_append, hw, h.all]; rfl⟩

theorem isClean_digits (n : Nat) : IsClean (digits n) := by
  refine ⟨digits_ne_nil n, List.all_eq_true.mpr fun c hc => ?_⟩
  obtain ⟨hblank, hcomment, -⟩ := isPlain_digits c hc
  rw [isClean, hblank, bne_iff_ne.mpr hcomment]
  rfl

theorem not_mem_digits (n : Nat) : ':' ∉ digits n := fun h => (isPlain_digits _ h).2.2 rfl

theorem not_comment {ws : List (List Char)} (h : ∀ w ∈ ws, IsClean w) :
    ¬ (spaced ws).contains '#' = true := by
  rw [List.contains_iff_mem]
  intro hmem
  rcases mem_spaced hmem with he | ⟨w, hw, hc⟩
  · cases he
  · exact Bool.false_ne_true (List.all_eq_true.mp (h w hw).all _ hc)

/-! ### Tokens -/

theorem Token.number_digits {n : Nat} (h : n < numberLimit) : Token.number (digits n) = .ok n := by
  rw [Token.number, number?_toDigits h]

theorem Statement.literal_digits {l : Literal} (h : l.index < numberLimit) :
    Statement.literal (digits l.index) = .ok l := by
  rw [Statement.literal, Token.number_digits h]
  exact congrArg Except.ok (Literal.ofIndex_index l)

/-- The characters of a bit. -/
def bitChars (bit : Bool) : List Char := if bit then ['1'] else ['0']

theorem Token.bit_bitChars (bit : Bool) : Token.bit (bitChars bit) = .ok bit := by
  cases bit <;> rfl

theorem Token.function_digits {f : GateFunction} (h : f.code.val ≠ 0) :
    Token.function (digits f.code.val) = .ok f := by
  have hlimit : f.code.val < numberLimit := Nat.lt_trans f.code.isLt (by decide)
  have hcode : GateFunction.ofCode? f.code.val = some f := by
    rw [GateFunction.ofCode?, dif_pos f.code.isLt]
  rw [Token.function, Token.number_digits hlimit]
  show Token.functionOfCode f.code.val = .ok f
  rw [Token.functionOfCode, hcode]
  exact if_neg h

namespace Statement

/-! ### Statements -/

/-- The words of the plain spelling. -/
def tokens : Statement → List (List Char)
  | .input l => [['I', ':'] ++ digits l.index]
  | .output l none => [['O', ':'] ++ digits l.index]
  | .output l (some seed) => [['O', ':'] ++ (digits l.index ++ ':' :: bitChars seed)]
  | .gate f out a b => [digits (2 * out), digits f.code.val, digits a.index, digits b.index]

/-- The numbers of the statement have 64 bits, and its function can be written. -/
def Spellable : Statement → Prop
  | .input l => l.index < numberLimit
  | .output l _ => l.index < numberLimit
  | .gate f out a b =>
    f.code.val ≠ 0 ∧ 2 * out < numberLimit ∧ a.index < numberLimit ∧ b.index < numberLimit

theorem text_toList (s : Statement) : s.text.toList = spaced s.tokens := by
  match s with
  | .input l => simp [text, tokens, spaced, toString]
  | .output l none => simp [text, tokens, spaced, toString]
  | .output l (some false) => simp [text, tokens, spaced, bitDigit, bitChars, toString]
  | .output l (some true) => simp [text, tokens, spaced, bitDigit, bitChars, toString]
  | .gate f out a b => simp [text, tokens, spaced, toString]

theorem tokens_clean (s : Statement) : ∀ w ∈ s.tokens, IsClean w := by
  have hI : ∀ n, IsClean (['I', ':'] ++ digits n) := fun n =>
    (isClean_digits n).append_left rfl
  have hO : ∀ n, IsClean (['O', ':'] ++ digits n) := fun n =>
    (isClean_digits n).append_left rfl
  intro w hw
  match s with
  | .input l => cases List.mem_singleton.mp hw; exact hI _
  | .output l none => cases List.mem_singleton.mp hw; exact hO _
  | .output l (some seed) =>
    cases List.mem_singleton.mp hw
    rw [← List.append_assoc]
    exact (hO _).append_right (by cases seed <;> rfl)
  | .gate f out a b =>
    simp only [tokens, List.mem_cons, List.not_mem_nil, or_false] at hw
    rcases hw with rfl | rfl | rfl | rfl <;> exact isClean_digits _

theorem ofDeclaration_input {l : Literal} (h : l.index < numberLimit) :
    ofDeclaration (['I', ':'] ++ digits l.index) = .ok (some (.input l)) := by
  have hfields : fields ':' (['I', ':'] ++ digits l.index) = [['I'], digits l.index] := by
    rw [show ['I', ':'] ++ digits l.index = ['I'] ++ ':' :: digits l.index from rfl,
      fields_append (by decide), fields_of_not_mem (not_mem_digits l.index)]
  rw [ofDeclaration, hfields]
  simp only [literal_digits h]
  rfl

theorem ofDeclaration_output {l : Literal} (h : l.index < numberLimit) :
    ofDeclaration (['O', ':'] ++ digits l.index) = .ok (some (.output l none)) := by
  have hfields : fields ':' (['O', ':'] ++ digits l.index) = [['O'], digits l.index] := by
    rw [show ['O', ':'] ++ digits l.index = ['O'] ++ ':' :: digits l.index from rfl,
      fields_append (by decide), fields_of_not_mem (not_mem_digits l.index)]
  rw [ofDeclaration, hfields]
  simp only [literal_digits h]
  rfl

theorem ofDeclaration_seeded {l : Literal} (h : l.index < numberLimit) (seed : Bool) :
    ofDeclaration (['O', ':'] ++ (digits l.index ++ ':' :: bitChars seed)) =
      .ok (some (.output l (some seed))) := by
  have hfields : fields ':' (['O', ':'] ++ (digits l.index ++ ':' :: bitChars seed)) =
      [['O'], digits l.index, bitChars seed] := by
    rw [show ['O', ':'] ++ (digits l.index ++ ':' :: bitChars seed) =
        ['O'] ++ ':' :: (digits l.index ++ ':' :: bitChars seed) from rfl,
      fields_append (by decide), fields_append (not_mem_digits l.index),
      fields_of_not_mem (by cases seed <;> decide)]
  rw [ofDeclaration, hfields]
  simp only [literal_digits h, Token.bit_bitChars]
  rfl

/-- A statement is read back from its plain spelling. -/
theorem ofLine_text {s : Statement} (h : s.Spellable) : ofLine s.text.toList = .ok (some s) := by
  rw [ofLine, text_toList, if_neg (not_comment s.tokens_clean),
    words_spaced fun w hw => (s.tokens_clean w hw).isWord]
  match s with
  | .input l => exact ofDeclaration_input h
  | .output l none => exact ofDeclaration_output h
  | .output l (some seed) => exact ofDeclaration_seeded h seed
  | .gate f out a b =>
    obtain ⟨hf, hout, ha, hb⟩ := h
    have hdriven : drivenWire (2 * out) = .ok out := by
      have hmod : ¬ 2 * out % 2 = 1 := by omega
      have hdiv : 2 * out / 2 = out := by omega
      rw [drivenWire, if_neg hmod, hdiv]
    simp only [tokens, ofGate, Token.function_digits hf, Token.number_digits hout,
      literal_digits ha, literal_digits hb, bind, Except.bind, hdriven]
    rfl

end Statement

/-! ### Lines of values -/

theorem Values.lineText_toList (w : Nat) (value : Bool) :
    (Values.lineText w value).toList =
      spaced [digits (Literal.mk w false).index, bitChars value] := by
  cases value <;>
    simp [Values.lineText, Statement.bitDigit, spaced, bitChars, toString]

theorem Values.lineText_clean (w : Nat) (value : Bool) :
    ∀ t ∈ [digits (Literal.mk w false).index, bitChars value], IsClean t := by
  intro t ht
  simp only [List.mem_cons, List.not_mem_nil, or_false] at ht
  rcases ht with rfl | rfl
  · exact isClean_digits _
  · cases value
    · exact ⟨by decide, rfl⟩
    · exact ⟨by decide, rfl⟩

/-- A wire and its value are read back from the line that gives them. -/
theorem Values.ofLine_lineText {w : Nat} (h : 2 * w < numberLimit) (value : Bool) :
    Values.ofLine (Values.lineText w value).toList = .ok (some (w, value)) := by
  have hindex : (Literal.mk w false).index = 2 * w := by simp [Literal.index]
  have hinput : digits (2 * w) ≠ "input".toList := by
    intro he
    have hmem : 'i' ∈ digits (2 * w) := by rw [he]; decide
    exact not_mem_digits_of_isDigit rfl _ hmem
  have hwire : (Literal.ofIndex (2 * w)).wire = w := by
    rw [← hindex, Literal.ofIndex_index]
  rw [Values.ofLine, Values.lineText_toList, if_neg (not_comment (Values.lineText_clean w value)),
    words_spaced fun t ht => (Values.lineText_clean w value t ht).isWord, hindex]
  simp only [if_neg hinput, Token.number_digits h, Token.bit_bitChars, bind, Except.bind, pure,
    Except.pure, hwire]

end GateNet
