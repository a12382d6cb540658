/-!
Exact rounding of nonnegative fractions. Everything is done on whole numbers, so each result is the
nearest one there is: a quotient goes to the nearest integer, and a half to the even neighbour.
-/

namespace GateNet

/-- The integer nearest to `num / den`; a half goes to the even neighbour. -/
def roundQuotient (num den : Nat) : Nat :=
  let q := num / den
  let twice := 2 * (num % den)
  if twice < den ∨ (twice = den ∧ q % 2 = 0) then q else q + 1

/-- A nonnegative fraction. -/
structure Fraction where
  num : Nat
  den : Nat := 1
deriving DecidableEq

namespace Fraction

/-- The fraction divided by a positive integer. -/
def divide (x : Fraction) (n : Nat) : Fraction := ⟨x.num, x.den * n⟩

/-- The nearest number with a significand of 53 bits, as in binary64, for a fraction of at least one
and within that format's range. -/
def toBinary64 (x : Fraction) : Fraction :=
  let exponent := (x.num / x.den).log2
  if exponent ≤ 52 then
    let scale := Nat.pow 2 (52 - exponent)
    ⟨roundQuotient (x.num * scale) x.den, scale⟩
  else
    let scale := Nat.pow 2 (exponent - 52)
    ⟨roundQuotient x.num (x.den * scale) * scale, 1⟩

/-- The fraction in decimal with a fixed number of places after the point. -/
def toFixed (x : Fraction) (places : Nat) : String :=
  let unit := Nat.pow 10 places
  let scaled := roundQuotient (x.num * unit) x.den
  let whole := scaled / unit
  let digits := toString (scaled % unit)
  s!"{whole}." ++ String.ofList (List.replicate (places - digits.length) '0') ++ digits

end Fraction

end GateNet
