import GateNet.Proofs.Text.Spelling

/-!
What tokens stand for. A token denotes a number if it is made of digits, after a plus sign or not, and
their value has 64 bits. The readers of tokens accept what denotes something, with what it denotes, and
report the whole token otherwise.
-/

namespace GateNet

namespace Text

variable {token : List Char} {n : Nat}

/-- The token stands for the number: it is a run of digits with this value, perhaps after a plus sign,
and the number is below the limit. -/
def Denotes (token : List Char) (n : Nat) : Prop :=
  ∃ run, (token = run ∨ token = '+' :: run) ∧ run ≠ [] ∧ (∀ c ∈ run, c.isDigit = true) ∧
    Nat.ofDigitChars 10 run 0 = n ∧ n < numberLimit

theorem digitsValue?_eq_some_iff {run : List Char} :
    digitsValue? run = some n ↔
      run ≠ [] ∧ (∀ c ∈ run, c.isDigit = true) ∧ Nat.ofDigitChars 10 run 0 = n := by
  simp [digitsValue?, and_assoc]

theorem dropPlus_eq_or (token : List Char) :
    token = dropPlus token ∨ token = '+' :: dropPlus token := by
  unfold dropPlus
  split
  · exact .inr rfl
  · exact .inl rfl

/-- A run of digits has no plus sign to drop. -/
theorem dropPlus_of_digits {run : List Char} (h : ∀ c ∈ run, c.isDigit = true) :
    dropPlus run = run := by
  unfold dropPlus
  split
  · exact absurd (h '+' (List.mem_cons_self ..)) (by decide)
  · rfl

theorem number?_eq_some_iff : number? token = some n ↔ Denotes token n := by
  constructor
  · intro h
    rw [number?] at h
    split at h
    · rename_i m hm
      obtain ⟨hne, hdigits, hvalue⟩ := digitsValue?_eq_some_iff.mp hm
      split at h
      · rename_i hlimit
        cases h
        exact ⟨dropPlus token, dropPlus_eq_or token, hne, hdigits, hvalue, hlimit⟩
      · cases h
    · cases h
  · rintro ⟨run, htoken, hne, hdigits, hvalue, hlimit⟩
    have hdrop : dropPlus token = run := by
      rcases htoken with rfl | rfl
      · exact dropPlus_of_digits hdigits
      · rfl
    rw [number?, hdrop, digitsValue?_eq_some_iff.mpr ⟨hne, hdigits, hvalue⟩]
    exact if_pos hlimit

end Text

open Text

namespace Token

variable {token : List Char} {cause : Cause}

theorem number_ok_iff {n : Nat} : number token = .ok n ↔ Denotes token n := by
  rw [← number?_eq_some_iff, number]
  cases number? token <;> simp

theorem number_error_iff :
    number token = .error cause ↔
      (∀ n, ¬ Denotes token n) ∧ cause = .invalidToken (String.ofList token) := by
  simp only [← number?_eq_some_iff, number]
  cases number? token <;> simp [eq_comm]

theorem bit_ok_iff {x : Bool} : bit token = .ok x ↔ token = bitChars x := by
  constructor
  · intro h
    unfold bit at h
    split at h <;> cases h <;> rfl
  · rintro rfl
    exact bit_bitChars x

theorem bit_error_iff :
    bit token = .error cause ↔
      (∀ x, token ≠ bitChars x) ∧ cause = .nonBinaryValue (String.ofList token) := by
  constructor
  · intro h
    refine ⟨fun x hx => ?_, ?_⟩
    · rw [hx, bit_bitChars] at h
      cases h
    · unfold bit at h
      split at h <;> cases h
      rfl
  · rintro ⟨hne, rfl⟩
    unfold bit
    split
    · exact absurd rfl (hne false)
    · exact absurd rfl (hne true)
    · rfl

/-- The token stands for the code of a function that can be declared. -/
def IsFunction (token : List Char) : Prop := ∃ n, Denotes token n ∧ n ≠ 0 ∧ n ≤ 15

theorem functionOfCode_error_iff {n : Nat} :
    functionOfCode n = .error cause ↔ (n = 0 ∨ 15 < n) ∧ cause = .functionOutOfRange n := by
  rw [functionOfCode, GateFunction.ofCode?]
  by_cases h : n < 16
  · have hle : ¬ 15 < n := by omega
    rw [dif_pos h]
    by_cases hn : n = 0 <;> simp [hn, hle, eq_comm]
  · have hlt : 15 < n := by omega
    rw [dif_neg h]
    simp [hlt, eq_comm]

theorem function_error_iff :
    function token = .error cause ↔
      ((∀ n, ¬ Denotes token n) ∧ cause = .invalidToken (String.ofList token)) ∨
        ∃ n, Denotes token n ∧ (n = 0 ∨ 15 < n) ∧ cause = .functionOutOfRange n := by
  rw [function, bind_error_iff, number_error_iff]
  simp only [number_ok_iff, functionOfCode_error_iff]

theorem exists_function_iff : (∃ f, function token = .ok f) ↔ IsFunction token := by
  constructor
  · rintro ⟨f, h⟩
    obtain ⟨n, hn, hf⟩ := bind_ok_iff.mp h
    by_cases hcode : n = 0 ∨ 15 < n
    · rw [functionOfCode_error_iff.mpr ⟨hcode, rfl⟩] at hf
      cases hf
    · exact ⟨n, number_ok_iff.mp hn, by omega, by omega⟩
  · rintro ⟨n, hn, hzero, hle⟩
    cases hf : functionOfCode n with
    | ok f => exact ⟨f, bind_ok_iff.mpr ⟨n, number_ok_iff.mpr hn, hf⟩⟩
    | error cause =>
      have hcode := (functionOfCode_error_iff.mp hf).1
      omega

end Token

end GateNet
