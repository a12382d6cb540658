import Mathlib.Data.List.Basic
import GateNet.Integer.TwosComplement

/-!
The arithmetic of bits. The bits of a width and the numbers below its modulus are the same thing, and
the leading bit tells the upper half of these numbers from the lower one. So a value that fits into a
width is stored as its residue, and the signed reading of a residue is the one congruent number that is
nearest to zero.
-/

namespace GateNet.TwosComplement

variable {width n m : Nat} {v : Int}

theorem modulus_pos (width : Nat) : 0 < modulus width := Nat.two_pow_pos width

/-! ### The value of bits -/

theorem value_append (xs ys : List Bool) :
    value (xs ++ ys) = value xs + modulus xs.length * value ys := by
  induction xs with
  | nil => simp
  | cons x rest ih =>
    rw [List.cons_append, value_cons, value_cons, ih, List.length_cons, modulus_succ, Nat.mul_add,
      Nat.mul_assoc]
    omega

theorem value_concat (xs : List Bool) (x : Bool) :
    value (xs ++ [x]) = value xs + modulus xs.length * x.toNat := by
  simp [value_append]

/-- Inverting every bit turns a number into its distance from the greatest one. -/
theorem value_map_not (xs : List Bool) :
    value (xs.map (!·)) + value xs + 1 = modulus xs.length := by
  induction xs with
  | nil => rfl
  | cons x rest ih =>
    rw [List.map_cons, value_cons, value_cons, List.length_cons, modulus_succ, ← ih]
    cases x with
    | false => simp; omega
    | true => simp; omega

/-- Bits of one number of places are told apart by their values. -/
theorem value_injective {xs ys : List Bool} (hlen : xs.length = ys.length)
    (h : value xs = value ys) : xs = ys := by
  induction xs generalizing ys with
  | nil => exact (List.length_eq_zero_iff.mp hlen.symm).symm
  | cons x rest ih =>
    cases ys with
    | nil => simp at hlen
    | cons y more =>
      rw [value_cons, value_cons] at h
      have hx := Bool.toNat_le x
      have hy := Bool.toNat_le y
      have hbit : x = y := by
        cases x <;> cases y <;> simp at h ⊢ <;> omega
      have hrest : rest = more := ih (by simpa using hlen) (by omega)
      rw [hbit, hrest]

theorem bitsOf_value (xs : List Bool) : bitsOf xs.length (value xs) = xs := by
  refine value_injective (length_bitsOf ..) ?_
  rw [value_bitsOf, Nat.mod_eq_of_lt (value_lt xs)]

/-- A leading bit that is set adds half of the modulus. -/
theorem leading_iff (xs : List Bool) (x : Bool) :
    modulus xs.length ≤ value (xs ++ [x]) ↔ x = true := by
  have hlt := value_lt xs
  rw [value_concat]
  cases x with
  | false => simp; omega
  | true => simp

/-! ### The bits that are stored -/

theorem getElem?_bitsOf {i : Nat} (h : i < width) : (bitsOf width n)[i]? = some (n.testBit i) := by
  rw [bitsOf, List.getElem?_map, List.getElem?_range h]
  rfl

/-- A bit of a list of bytes is a bit of one of the bytes. -/
theorem getElem?_bitsOfBytes (bytes : List UInt8) (i : Nat) :
    (bitsOfBytes bytes)[i]? = bytes[i / 8]?.map fun byte => byte.toNat.testBit (i % 8) := by
  induction bytes generalizing i with
  | nil => rfl
  | cons byte rest ih =>
    rw [bitsOfBytes, List.flatMap_cons, ← bitsOfBytes, List.getElem?_append, length_bitsOf]
    split
    · rename_i h
      rw [getElem?_bitsOf h, Nat.div_eq_of_lt h, Nat.mod_eq_of_lt h]
      rfl
    · rename_i h
      obtain ⟨j, rfl⟩ := Nat.exists_eq_add_of_le' (Nat.not_lt.mp h)
      rw [Nat.add_sub_cancel, ih, Nat.add_div_right j (by decide), Nat.add_mod_right]
      rfl

/-- Beyond its bytes a number has zeros only. -/
theorem getD_bytesOf (n i : Nat) : (bytesOf n).getD i 0 = UInt8.ofNat (n >>> (8 * i)) := by
  rw [bytesOf, List.getD_eq_getElem?_getD, List.getElem?_map]
  by_cases h : i < n.log2 / 8 + 1
  · rw [List.getElem?_range h]
    rfl
  · have hlt : n < 2 ^ (8 * i) := Nat.lt_of_lt_of_le Nat.lt_log2_self
      (Nat.pow_le_pow_right (by decide) (by omega))
    rw [List.getElem?_eq_none (by simpa using h), Nat.shiftRight_eq_div_pow, Nat.div_eq_of_lt hlt]
    rfl

theorem getElem?_resize {count i : Nat} (bytes : List UInt8) (h : i < count) :
    (resize count bytes)[i]? = some (bytes.getD i 0) := by
  rw [resize, List.rightpad, List.getElem?_append, List.length_take, List.getD_eq_getElem?_getD]
  by_cases hb : i < bytes.length
  · rw [if_pos (Nat.lt_min.mpr ⟨h, hb⟩), List.getElem?_take_of_lt h, List.getElem?_eq_getElem hb]
    rfl
  · rw [if_neg (by omega), List.getElem?_replicate_of_lt (by omega),
      List.getElem?_eq_none (Nat.not_lt.mp hb)]
    rfl

/-- The bits that are stored are the lowest bits of the number. -/
theorem storedBits_eq (width n : Nat) : storedBits width n = bitsOf width n := by
  refine List.ext_getElem? fun i => ?_
  by_cases h : i < width
  · have hbyte : (UInt8.ofNat (n >>> (8 * (i / 8)))).toNat.testBit (i % 8) = n.testBit i := by
      have hlow : i % 8 < 8 := Nat.mod_lt i (by decide)
      rw [UInt8.toNat_ofNat', Nat.testBit_mod_two_pow, Nat.testBit_shiftRight, Nat.div_add_mod]
      simp [hlow]
    rw [storedBits, List.getElem?_take_of_lt h, getElem?_bitsOfBytes, getElem?_resize _ (by omega),
      getD_bytesOf, Option.map_some, hbyte, getElem?_bitsOf h]
  · rw [storedBits, List.getElem?_take_eq_none (Nat.not_lt.mp h), List.getElem?_eq_none]
    rw [length_bitsOf]
    exact Nat.not_lt.mp h

theorem encode_eq (v : Int) (width : Nat) :
    encode v width = match pattern? v width with
      | some n => .ok (bitsOf width n)
      | none => .error (.tooWide v width) := by
  rw [encode]
  cases pattern? v width with
  | none => rfl
  | some n => exact congrArg Except.ok (storedBits_eq width n)

/-! ### Values that fit -/

/-- The value has a signed or an unsigned reading of the width. -/
def Fits (v : Int) (width : Nat) : Prop := -(modulus (width - 1) : Int) ≤ v ∧ v < modulus width

instance (v : Int) (width : Nat) : Decidable (Fits v width) := inferInstanceAs (Decidable (_ ∧ _))

/-- The number below the modulus that is congruent to the value. -/
def residue (v : Int) (width : Nat) : Nat := (v % modulus width).toNat

theorem residue_cast (v : Int) (width : Nat) : (residue v width : Int) = v % modulus width := by
  have hpos := modulus_pos width
  rw [residue, Int.toNat_of_nonneg]
  exact Int.emod_nonneg v (by omega)

theorem residue_lt (v : Int) (width : Nat) : residue v width < modulus width := by
  have hpos := modulus_pos width
  have hlt := Int.emod_lt_of_pos v (show (0 : Int) < modulus width by omega)
  rw [← residue_cast] at hlt
  omega

/-- A number below the modulus is the residue of what it is congruent to. -/
theorem eq_residue (hn : n < modulus width) (h : (n : Int) % modulus width = v % modulus width) :
    n = residue v width := by
  have hcast := residue_cast v width
  rw [← h, Int.emod_eq_of_lt (by omega) (by omega)] at hcast
  omega

theorem residue_of_nonneg (hn : n < modulus width) : residue n width = n :=
  (eq_residue hn rfl).symm

/-- A value that fits is stored as its residue. -/
theorem encode_of_fits (hw : 1 ≤ width) (h : Fits v width) :
    encode v width = .ok (bitsOf width (residue v width)) := by
  obtain ⟨hlow, hhigh⟩ := h
  cases v with
  | ofNat n =>
    have hn : n < modulus width := Int.ofNat_lt.mp hhigh
    have hres : residue (n : Int) width = n := residue_of_nonneg hn
    simp [encode_eq, pattern?, hn, hres]
  | negSucc n =>
    obtain ⟨k, rfl⟩ : ∃ k, width = k + 1 := ⟨width - 1, by omega⟩
    have hdouble := modulus_succ k
    rw [Nat.add_sub_cancel] at hlow
    have hn : n < modulus k := by omega
    have hpattern : pattern? (.negSucc n) (k + 1) = some (modulus (k + 1) - (n + 1)) := by
      simp [pattern?, hn]
    have hres : modulus (k + 1) - (n + 1) = residue (.negSucc n) (k + 1) := by
      refine eq_residue (by omega) ?_
      have hcongr : ((modulus (k + 1) - (n + 1) : Nat) : Int) =
          Int.negSucc n + modulus (k + 1) := by
        omega
      rw [hcongr, Int.add_emod_right]
    simp only [encode_eq, hpattern, hres]

/-- A value that is refused is too wide. -/
theorem encode_error {e : IntegerError} (h : encode v width = .error e) : e = .tooWide v width := by
  rw [encode] at h
  split at h
  · cases h
  · exact (Except.error.inj h).symm

theorem encode_of_not_fits (hw : 1 ≤ width) (h : ¬ Fits v width) :
    encode v width = .error (.tooWide v width) := by
  obtain ⟨k, rfl⟩ : ∃ k, width = k + 1 := ⟨width - 1, by omega⟩
  have hdouble := modulus_succ k
  rw [Fits, Nat.add_sub_cancel] at h
  cases v with
  | ofNat n =>
    have hn : ¬ n < modulus (k + 1) := by
      intro hn
      have hnonneg : (0 : Int) ≤ Int.ofNat n := Int.natCast_nonneg n
      exact h ⟨by omega, Int.ofNat_lt.mpr hn⟩
    simp [encode_eq, pattern?, hn]
  | negSucc n =>
    have hn : ¬ n < modulus k := by
      intro hn
      exact h ⟨by omega, by omega⟩
    simp [encode_eq, pattern?, hn]

/-! ### Signed readings -/

theorem testBit_top (hn : n < modulus (width + 1)) :
    n.testBit width = decide (modulus width ≤ n) := by
  have hdouble := modulus_succ width
  have hpos := modulus_pos width
  rw [Nat.testBit_eq_decide_div_mod_eq]
  show decide (n / modulus width % 2 = 1) = _
  by_cases h : modulus width ≤ n
  · have hdiv : n / modulus width = 1 := by
      rw [Nat.div_eq_iff hpos]
      omega
    simp [h, hdiv]
  · have hdiv : n / modulus width = 0 := Nat.div_eq_of_lt (by omega)
    simp [h, hdiv]

/-- The signed reading of a number below the modulus is its balanced residue. -/
theorem signed_eq_bmod (hn : n < modulus width) : signed n width = Int.bmod n (modulus width) := by
  cases width with
  | zero =>
    obtain rfl : n = 0 := by simpa using hn
    rfl
  | succ k =>
    have hdouble := modulus_succ k
    have hmod : (n : Int) % modulus (k + 1) = n := Int.emod_eq_of_lt (by omega) (by omega)
    rw [signed, Int.bmod, Nat.add_sub_cancel, testBit_top hn, hmod]
    by_cases h : modulus k ≤ n
    · rw [if_pos ⟨Nat.succ_pos k, by simpa using h⟩, if_neg (by omega)]
    · rw [if_neg (by simp [h]), if_pos (by omega)]

/-- The signed reading of a residue. -/
theorem signed_residue (v : Int) (width : Nat) :
    signed (residue v width) width = Int.bmod v (modulus width) := by
  rw [signed_eq_bmod (residue_lt v width), residue_cast, Int.emod_bmod]

/-- The signed reading lies above zero exactly in the lower half, and below it by a modulus otherwise. -/
theorem signed_cases (hn : n < modulus (width + 1)) :
    (n < modulus width ∧ signed n (width + 1) = n) ∨
      (modulus width ≤ n ∧ signed n (width + 1) = (n : Int) - modulus (width + 1)) := by
  rw [signed, Nat.add_sub_cancel, testBit_top hn]
  by_cases h : modulus width ≤ n
  · exact .inr ⟨h, by rw [if_pos ⟨Nat.succ_pos width, by simpa using h⟩]⟩
  · exact .inl ⟨by omega, by rw [if_neg (by simp [h])]⟩

/-! ### Arithmetic modulo two to the width -/

theorem signed_emod (hn : n < modulus width) : signed n width % modulus width = n := by
  have hmod : (n : Int) % modulus width = n := Int.emod_eq_of_lt (by omega) (by omega)
  rw [signed]
  split
  · rw [Int.sub_emod_right, hmod]
  · exact hmod

theorem residue_congr (h : v % modulus width = (n : Int) % modulus width) :
    residue v width = n % modulus width := by
  rw [residue, h, ← Int.natCast_emod, Int.toNat_natCast]

theorem residue_add (hm : m < modulus width) (hn : n < modulus width) :
    residue (signed m width + signed n width) width = (m + n) % modulus width := by
  refine residue_congr ?_
  rw [Int.add_emod, signed_emod hm, signed_emod hn, Int.natCast_add]

theorem residue_natCast_sub (hn : n < modulus width) :
    residue (m - n : Int) width = (m + (modulus width - n)) % modulus width := by
  refine residue_congr ?_
  have hcast : ((m + (modulus width - n) : Nat) : Int) = m - n + modulus width := by omega
  rw [hcast, Int.add_emod_right]

theorem residue_sub (hm : m < modulus width) (hn : n < modulus width) :
    residue (signed m width - signed n width) width =
      (m + (modulus width - n)) % modulus width := by
  rw [← residue_natCast_sub hn, residue, residue, Int.sub_emod, signed_emod hm, signed_emod hn]

theorem residue_natCast_neg (hm : m < modulus width) :
    residue (-m : Int) width = (modulus width - m) % modulus width := by
  have hsub := residue_natCast_sub (m := 0) hm
  rwa [Int.natCast_zero, Int.zero_sub, Nat.zero_add] at hsub

theorem residue_neg (hm : m < modulus width) :
    residue (-signed m width) width = (modulus width - m) % modulus width := by
  rw [← residue_natCast_neg hm, residue, residue, ← Int.zero_sub, Int.sub_emod, signed_emod hm,
    Int.zero_emod, Int.zero_sub]

end GateNet.TwosComplement
