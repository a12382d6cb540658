import GateNet.Text.Decimal

/-!
Integers of any size in decimal, as operands are spelled: at most one sign, and digits among which
underscores may stand anywhere but in front.
-/

namespace GateNet.Text

/-- The value of digits that underscores may group. -/
def groupedDigits? : List Char → Option Nat
  | [] => none
  | '_' :: _ => none
  | digits => digitsValue? (digits.filter (· != '_'))

/-- The integer that the characters spell. -/
def integer? : List Char → Option Int
  | '-' :: rest => (groupedDigits? rest).map fun n => -(n : Int)
  | text => (groupedDigits? (dropPlus text)).map Int.ofNat

end GateNet.Text
