/-!
Numbers of 64 bits in decimal. A number may have a plus sign and leading zeros, so it has many
spellings; the plain digits are the one that is written.
-/

namespace GateNet.Text

/-- The value of a nonempty run of ASCII digits. -/
def digitsValue? (digits : List Char) : Option Nat :=
  if digits ≠ [] ∧ digits.all Char.isDigit then some (Nat.ofDigitChars 10 digits 0) else none

/-- The characters after one plus sign, if there is one. -/
def dropPlus : List Char → List Char
  | '+' :: rest => rest
  | text => text

/-- Two to the 64, which numbers stay below. -/
def numberLimit : Nat := 18446744073709551616

/-- The number below the limit that the characters spell. -/
def number? (text : List Char) : Option Nat :=
  match digitsValue? (dropPlus text) with
  | some n => if n < numberLimit then some n else none
  | none => none

/-- The digits of a number have its value. -/
theorem digitsValue?_toDigits (n : Nat) : digitsValue? (Nat.toDigits 10 n) = some n := by
  have digits : (Nat.toDigits 10 n).all Char.isDigit = true :=
    List.all_eq_true.2 fun c hc => Nat.isDigit_of_mem_toDigits (by decide) (by decide) hc
  have value : Nat.ofDigitChars 10 (Nat.toDigits 10 n) 0 = n :=
    Nat.ofDigitChars_toDigits (by decide) (by decide)
  simp [digitsValue?, digits, value]

/-- Digits have no plus sign to drop. -/
theorem dropPlus_toDigits (n : Nat) : dropPlus (Nat.toDigits 10 n) = Nat.toDigits 10 n := by
  unfold dropPlus
  split
  · rename_i rest heq
    have digit : '+'.isDigit = true :=
      Nat.isDigit_of_mem_toDigits (by decide) (by decide) (heq ▸ List.mem_cons_self)
    simp [Char.isDigit] at digit
  · rfl

/-- A number below the limit is read back from its digits. -/
theorem number?_toDigits {n : Nat} (h : n < numberLimit) : number? (Nat.toDigits 10 n) = some n := by
  rw [number?, dropPlus_toDigits, digitsValue?_toDigits]
  exact if_pos h

end GateNet.Text
