import GateNet.Integer.Error

/-!
Integers as bits of a fixed width, least significant first. A width of `n` holds every value whose
signed or unsigned reading has `n` bits, from `-2 ^ (n - 1)` to `2 ^ n - 1`; what is stored is the value
modulo `2 ^ n`, and the signed reading gives back the representative that the leading bit picks. A number
is taken apart into bytes first, as many as its width calls for, and the bytes into bits.
-/

namespace GateNet.TwosComplement

/-- The number of patterns of a width: two to the width. -/
def modulus (width : Nat) : Nat := Nat.pow 2 width

/-- The lowest `width` bits of a number, least significant first. -/
def bitsOf (width n : Nat) : List Bool := (List.range width).map n.testBit

/-- The number with these bits, least significant first. -/
def value (bits : List Bool) : Nat := bits.foldr (fun bit n => bit.toNat + 2 * n) 0

/-- The unsigned number that stands for a value in a width that holds it. -/
def pattern? : Int → Nat → Option Nat
  | .ofNat n, width => if n < modulus width then some n else none
  | .negSucc n, width =>
    if width ≠ 0 ∧ n < modulus (width - 1) then some (modulus width - (n + 1)) else none

/-- The bytes of a number without leading zeros, lowest first; zero has one byte. -/
def bytesOf (n : Nat) : List UInt8 :=
  (List.range (n.log2 / 8 + 1)).map fun i => UInt8.ofNat (n >>> (8 * i))

/-- Bytes brought to a number of them: cut off, or filled up with zeros. -/
def resize (count : Nat) (bytes : List UInt8) : List UInt8 := (bytes.take count).rightpad count 0

/-- The bits of bytes, the lowest bit of each byte first. -/
def bitsOfBytes (bytes : List UInt8) : List Bool := bytes.flatMap fun byte => bitsOf 8 byte.toNat

/-- The bits of a number, read off as many bytes as the width takes up. -/
def storedBits (width n : Nat) : List Bool :=
  (bitsOfBytes (resize ((width + 7) / 8) (bytesOf n))).take width

/-- The bits of a value. -/
def encode (v : Int) (width : Nat) : Except IntegerError (List Bool) :=
  match pattern? v width with
  | some n => .ok (storedBits width n)
  | none => .error (.tooWide v width)

/-- The signed reading of an unsigned number of a width: the leading bit counts negative. -/
def signed (n width : Nat) : Int :=
  if 0 < width ∧ n.testBit (width - 1) then (n : Int) - modulus width else n

/-! ### Bit strings, most significant bit first -/

/-- The bit that a digit stands for. -/
def bitOfDigit? : Char → Option Bool
  | '0' => some false
  | '1' => some true
  | _ => none

/-- The unsigned reading of a bit string. -/
def unsignedOfText (text : String) : Except IntegerError Nat :=
  match text.toList, text.toList.mapM bitOfDigit? with
  | _ :: _, some bits => .ok (value bits.reverse)
  | _, _ => .error (.invalidBitString text)

/-- The signed reading of a bit string, whose first bit is its sign. -/
def signedOfText (text : String) : Except IntegerError Int := do
  return signed (← unsignedOfText text) text.length

/-! ### The bits of a number and the number of bits -/

@[simp] theorem modulus_zero : modulus 0 = 1 := rfl

theorem modulus_succ (width : Nat) : modulus (width + 1) = 2 * modulus width := Nat.pow_succ'

@[simp] theorem bitsOf_zero (n : Nat) : bitsOf 0 n = [] := rfl

/-- The lowest bit of a number is its parity, and the others are the bits of its half. -/
theorem bitsOf_succ (width n : Nat) : bitsOf (width + 1) n = (n % 2 == 1) :: bitsOf width (n / 2) := by
  have low : n.testBit 0 = (n % 2 == 1) := by
    rcases Nat.mod_two_eq_zero_or_one n with h | h <;> simp [h]
  simp only [bitsOf, List.range_succ_eq_map, List.map_cons, List.map_map, Function.comp_def,
    Nat.testBit_succ, low]

@[simp] theorem length_bitsOf (width n : Nat) : (bitsOf width n).length = width := by
  simp [bitsOf]

@[simp] theorem value_nil : value [] = 0 := rfl

@[simp] theorem value_cons (bit : Bool) (rest : List Bool) :
    value (bit :: rest) = bit.toNat + 2 * value rest := rfl

/-- The bits of a width spell the numbers below its modulus. -/
theorem value_lt (bits : List Bool) : value bits < modulus bits.length := by
  induction bits with
  | nil => simp
  | cons bit rest ih =>
    have : bit.toNat ≤ 1 := Bool.toNat_le bit
    simp only [value_cons, List.length_cons, modulus_succ]
    omega

/-- The lowest bits of a number make up its remainder. -/
theorem value_bitsOf (width n : Nat) : value (bitsOf width n) = n % modulus width := by
  induction width generalizing n with
  | zero => simp [Nat.mod_one]
  | succ width ih =>
    have low : (n % 2 == 1).toNat = n % 2 := by
      rcases Nat.mod_two_eq_zero_or_one n with h | h <;> simp [h]
    rw [bitsOf_succ, value_cons, ih, low, modulus_succ, Nat.mod_mul]

end GateNet.TwosComplement
