import GateNet.Proofs.Text.Token

/-!
Lines that are no statements. A line is misspelled for one reason, whatever stands in other lines: its
declaration has not the fields that it should have, or one of its tokens stands for nothing. Of several
tokens the first one that is looked at counts: the function of a gate before its output, and then the
wires that it reads.
-/

namespace GateNet

open Text

namespace Statement

variable {cause : Cause}

/-- Why a word that should declare an input or an output does not: its index or its value stands for
nothing, or it has too few fields or too many. -/
inductive MisspelledDeclaration (word : List Char) : Cause → Prop
  | inputIndex {index : List Char} : fields ':' word = [['I'], index] → (∀ n, ¬ Denotes index n) →
      MisspelledDeclaration word (.invalidToken (String.ofList index))
  | outputIndex {index : List Char} {seed : List (List Char)} :
      fields ':' word = ['O'] :: index :: seed → seed.length ≤ 1 → (∀ n, ¬ Denotes index n) →
      MisspelledDeclaration word (.invalidToken (String.ofList index))
  | outputSeed {index seed : List Char} {n : Nat} : fields ':' word = [['O'], index, seed] →
      Denotes index n → (∀ x, seed ≠ bitChars x) →
      MisspelledDeclaration word (.nonBinaryValue (String.ofList seed))
  | inputFields {rest : List (List Char)} : fields ':' word = ['I'] :: rest → rest.length ≠ 1 →
      MisspelledDeclaration word (.invalidToken (String.ofList word))
  | outputFields {rest : List (List Char)} : fields ':' word = ['O'] :: rest → rest.length ≠ 1 →
      rest.length ≠ 2 → MisspelledDeclaration word (.invalidToken (String.ofList word))

/-- Why four words that should declare a gate do not: the function, the output and the two inputs are
looked at in this order. -/
inductive MisspelledGate (out function a b : List Char) : Cause → Prop
  | function : (∀ n, ¬ Denotes function n) →
      MisspelledGate out function a b (.invalidToken (String.ofList function))
  | code {n : Nat} : Denotes function n → n = 0 ∨ 15 < n →
      MisspelledGate out function a b (.functionOutOfRange n)
  | output : Token.IsFunction function → (∀ n, ¬ Denotes out n) →
      MisspelledGate out function a b (.invalidToken (String.ofList out))
  | inverted {i : Nat} : Token.IsFunction function → Denotes out i → i % 2 = 1 →
      MisspelledGate out function a b (.invertedGateOutput i)
  | first {i : Nat} : Token.IsFunction function → Denotes out i → i % 2 = 0 → (∀ n, ¬ Denotes a n) →
      MisspelledGate out function a b (.invalidToken (String.ofList a))
  | second {i j : Nat} : Token.IsFunction function → Denotes out i → i % 2 = 0 → Denotes a j →
      (∀ n, ¬ Denotes b n) → MisspelledGate out function a b (.invalidToken (String.ofList b))

/-- Why a line is no statement, though it has no comment sign and the words of one. -/
inductive Misspelled (line : List Char) : Cause → Prop
  | declaration {word : List Char} {cause : Cause} : '#' ∉ line → words line = [word] →
      MisspelledDeclaration word cause → Misspelled line cause
  | gate {out function a b : List Char} {cause : Cause} : '#' ∉ line →
      words line = [out, function, a, b] → MisspelledGate out function a b cause →
      Misspelled line cause

/-! ### The readers refuse what is misspelled -/

theorem literal_error_iff {token : List Char} :
    literal token = .error cause ↔
      (∀ n, ¬ Denotes token n) ∧ cause = .invalidToken (String.ofList token) := by
  simp only [literal, bind_error_iff, Token.number_error_iff, pure_error_iff, and_false, exists_false,
    or_false]

theorem exists_literal_iff {token : List Char} :
    (∃ l, literal token = .ok l) ↔ ∃ n, Denotes token n := by
  simp only [literal, bind_ok_iff, Token.number_ok_iff, pure_ok_iff]
  constructor
  · rintro ⟨-, n, hn, -⟩
    exact ⟨n, hn⟩
  · rintro ⟨n, hn⟩
    exact ⟨_, n, hn, rfl⟩

theorem ofDeclaration_error_iff {word : List Char} :
    ofDeclaration word = .error cause ↔ MisspelledDeclaration word cause := by
  constructor
  · intro h
    unfold ofDeclaration at h
    split at h
    · rename_i index hfields
      simp only [bind_error_iff, literal_error_iff, pure_error_iff, and_false, exists_false,
        or_false] at h
      obtain ⟨hindex, rfl⟩ := h
      exact .inputIndex hfields hindex
    · rename_i index hfields
      simp only [bind_error_iff, literal_error_iff, pure_error_iff, and_false, exists_false,
        or_false] at h
      obtain ⟨hindex, rfl⟩ := h
      exact .outputIndex hfields (by simp) hindex
    · rename_i index seed hfields
      simp only [bind_error_iff, literal_error_iff, Token.bit_error_iff, pure_error_iff, and_false,
        exists_false, or_false] at h
      rcases h with ⟨hindex, rfl⟩ | ⟨l, hl, hseed, rfl⟩
      · exact .outputIndex hfields (by simp) hindex
      · obtain ⟨n, hn⟩ := exists_literal_iff.mp ⟨l, hl⟩
        exact .outputSeed hfields hn hseed
    · rename_i rest hone hfields
      cases h
      refine .inputFields hfields fun hlength => ?_
      obtain ⟨index, rfl⟩ := List.length_eq_one_iff.mp hlength
      exact hone index rfl
    · rename_i rest hone htwo hfields
      cases h
      refine .outputFields hfields (fun hlength => ?_) fun hlength => ?_
      · obtain ⟨index, rfl⟩ := List.length_eq_one_iff.mp hlength
        exact hone index rfl
      · obtain ⟨index, seed, rfl⟩ := List.length_eq_two.mp hlength
        exact htwo index seed rfl
    · cases h
  · intro h
    cases h with
    | inputIndex hfields hindex =>
      rw [ofDeclaration, hfields]
      exact bind_error_iff.mpr (.inl (literal_error_iff.mpr ⟨hindex, rfl⟩))
    | @outputIndex index seed hfields hlength hindex =>
      rw [ofDeclaration, hfields]
      have hliteral := literal_error_iff.mpr ⟨hindex, rfl⟩
      rcases seed with _ | ⟨seed, _ | ⟨extra, seed⟩⟩
      · exact bind_error_iff.mpr (.inl hliteral)
      · exact bind_error_iff.mpr (.inl hliteral)
      · simp at hlength
    | outputSeed hfields hindex hseed =>
      rw [ofDeclaration, hfields]
      obtain ⟨l, hl⟩ := exists_literal_iff.mpr ⟨_, hindex⟩
      exact bind_error_iff.mpr (.inr ⟨l, hl, bind_error_iff.mpr
        (.inl (Token.bit_error_iff.mpr ⟨hseed, rfl⟩))⟩)
    | @inputFields rest hfields hone =>
      rw [ofDeclaration, hfields]
      rcases rest with _ | ⟨index, _ | ⟨extra, rest⟩⟩
      · rfl
      · exact absurd rfl hone
      · rfl
    | @outputFields rest hfields hone htwo =>
      rw [ofDeclaration, hfields]
      rcases rest with _ | ⟨index, _ | ⟨seed, _ | ⟨extra, rest⟩⟩⟩
      · rfl
      · exact absurd rfl hone
      · exact absurd rfl htwo
      · rfl

theorem drivenWire_error_iff {i : Nat} :
    drivenWire i = .error cause ↔ i % 2 = 1 ∧ cause = .invertedGateOutput i := by
  rw [drivenWire]
  rcases Nat.mod_two_eq_zero_or_one i with h | h <;> simp [h, eq_comm]

theorem exists_drivenWire_iff {i : Nat} : (∃ w, drivenWire i = .ok w) ↔ i % 2 = 0 := by
  rw [drivenWire]
  rcases Nat.mod_two_eq_zero_or_one i with h | h <;> simp [h]

theorem ofGate_error_iff {out function a b : List Char} :
    ofGate out function a b = .error cause ↔ MisspelledGate out function a b cause := by
  simp only [ofGate, bind_error_iff, Token.function_error_iff, Token.number_error_iff,
    Token.number_ok_iff, drivenWire_error_iff, literal_error_iff, pure_error_iff, and_false,
    exists_false, or_false]
  constructor
  · rintro ((⟨hnone, rfl⟩ | ⟨n, hn, hcode, rfl⟩) | ⟨f, hf, h⟩)
    · exact .function hnone
    · exact .code hn hcode
    have hf := Token.exists_function_iff.mp ⟨f, hf⟩
    rcases h with ⟨hnone, rfl⟩ | ⟨i, hi, ⟨hodd, rfl⟩ | ⟨w, hw, h⟩⟩
    · exact .output hf hnone
    · exact .inverted hf hi hodd
    have heven := exists_drivenWire_iff.mp ⟨w, hw⟩
    rcases h with ⟨hnone, rfl⟩ | ⟨l, hl, hnone, rfl⟩
    · exact .first hf hi heven hnone
    · obtain ⟨j, hj⟩ := exists_literal_iff.mp ⟨l, hl⟩
      exact .second hf hi heven hj hnone
  · intro h
    cases h with
    | function hnone => exact .inl (.inl ⟨hnone, rfl⟩)
    | code hn hcode => exact .inl (.inr ⟨_, hn, hcode, rfl⟩)
    | output hf hnone =>
      obtain ⟨f, hf⟩ := Token.exists_function_iff.mpr hf
      exact .inr ⟨f, hf, .inl ⟨hnone, rfl⟩⟩
    | inverted hf hi hodd =>
      obtain ⟨f, hf⟩ := Token.exists_function_iff.mpr hf
      exact .inr ⟨f, hf, .inr ⟨_, hi, .inl ⟨hodd, rfl⟩⟩⟩
    | first hf hi heven hnone =>
      obtain ⟨f, hf⟩ := Token.exists_function_iff.mpr hf
      obtain ⟨w, hw⟩ := exists_drivenWire_iff.mpr heven
      exact .inr ⟨f, hf, .inr ⟨_, hi, .inr ⟨w, hw, .inl ⟨hnone, rfl⟩⟩⟩⟩
    | second hf hi heven hj hnone =>
      obtain ⟨f, hf⟩ := Token.exists_function_iff.mpr hf
      obtain ⟨w, hw⟩ := exists_drivenWire_iff.mpr heven
      obtain ⟨l, hl⟩ := exists_literal_iff.mpr ⟨_, hj⟩
      exact .inr ⟨f, hf, .inr ⟨_, hi, .inr ⟨w, hw, .inr ⟨l, hl, hnone, rfl⟩⟩⟩⟩

/-- A line is refused exactly if it is misspelled, and for this reason. -/
theorem ofLine_error_iff {line : List Char} :
    ofLine line = .error cause ↔ Misspelled line cause := by
  constructor
  · intro h
    unfold ofLine at h
    split at h
    · cases h
    · rename_i hcomment
      rw [List.contains_iff_mem] at hcomment
      split at h
      · rename_i word hwords
        exact .declaration hcomment hwords (ofDeclaration_error_iff.mp h)
      · rename_i out function a b hwords
        exact .gate hcomment hwords (ofGate_error_iff.mp h)
      · cases h
  · intro h
    cases h with
    | declaration hcomment hwords h =>
      rw [ofLine, if_neg (by rwa [List.contains_iff_mem]), hwords]
      exact ofDeclaration_error_iff.mpr h
    | gate hcomment hwords h =>
      rw [ofLine, if_neg (by rwa [List.contains_iff_mem]), hwords]
      exact ofGate_error_iff.mpr h

/-- Whatever is misspelled is a matter of the line alone. -/
theorem Misspelled.kind {line : List Char} (h : Misspelled line cause) : cause.kind = .malformed := by
  cases h with
  | declaration _ _ h => cases h <;> rfl
  | gate _ _ h => cases h <;> rfl

end Statement

end GateNet
