import GateNet.Circuit.Evaluation
import GateNet.Proofs.Sequence
import GateNet.Proofs.TwosComplement

/-!
Integers as bits and bits as text. A width holds the values that have a signed or an unsigned reading in
it, and stores each as its residue; a bit string is what some bits are printed as, so reading one finds
these bits again. Hence a string is read as numbers that are stored as the string, and a stored value is
read back in the readings that have it.
-/

namespace GateNet.TwosComplement

open Circuit (bitText)

variable {k m width : Nat} {v : Int} {text : String} {bits : List Bool}

/-! ### Storing values -/

/-- The width holds the value: zero, or what has a reading of one bit or more. -/
def Holdable (v : Int) (width : Nat) : Prop := v = 0 ∨ 1 ≤ width ∧ Fits v width

instance (v : Int) (width : Nat) : Decidable (Holdable v width) := inferInstanceAs (Decidable (_ ∨ _))

theorem Holdable.fits (h : Holdable v width) : Fits v width := by
  rcases h with rfl | ⟨-, hv⟩
  · have hpos := modulus_pos width
    exact ⟨by omega, by omega⟩
  · exact hv

theorem encode_zero (width : Nat) : encode 0 width = .ok (bitsOf width (residue 0 width)) := by
  have hpattern : pattern? 0 width = some 0 := if_pos (modulus_pos width)
  have hzero : residue 0 width = 0 := residue_of_nonneg (modulus_pos width)
  rw [encode_eq, hpattern, hzero]

/-- A value that its width holds is stored as its residue. -/
theorem encode_of_holdable (h : Holdable v width) :
    encode v width = .ok (bitsOf width (residue v width)) := by
  rcases h with rfl | ⟨hw, hv⟩
  · exact encode_zero width
  · exact encode_of_fits hw hv

theorem encode_of_not_holdable (h : ¬ Holdable v width) :
    encode v width = .error (.tooWide v width) := by
  obtain ⟨hzero, hv⟩ := not_or.mp h
  by_cases hw : 1 ≤ width
  · exact encode_of_not_fits hw fun hfits => hv ⟨hw, hfits⟩
  · -- no bits hold nothing but zero
    obtain rfl : width = 0 := by omega
    have hpattern : pattern? v 0 = none := by
      cases v with
      | ofNat n => exact if_neg fun hn => hzero (congrArg Int.ofNat (Nat.lt_one_iff.mp hn))
      | negSucc n => simp [pattern?]
    rw [encode, hpattern]

theorem signed_fits (hm : m < modulus (k + 1)) : Fits (signed m (k + 1)) (k + 1) := by
  have hdouble := modulus_succ k
  have hsigned := signed_cases hm
  rw [Fits, Nat.add_sub_cancel]
  omega

theorem residue_signed (hm : m < modulus width) : residue (signed m width) width = m := by
  have hcongr : signed m width % modulus width = (m : Int) % modulus width := by
    rw [signed_emod hm, Int.emod_eq_of_lt (by omega) (by omega)]
  rw [residue_congr hcongr, Nat.mod_eq_of_lt hm]

/-- Both readings of some bits are stored as these bits. -/
theorem encode_readings (hb : bits ≠ []) :
    encode (value bits) bits.length = .ok bits ∧
      encode (signed (value bits) bits.length) bits.length = .ok bits := by
  have hlt := value_lt bits
  have hpos := List.length_pos_iff.mpr hb
  have hunsigned : Fits (value bits) bits.length := ⟨by omega, by omega⟩
  have hsigned : Fits (signed (value bits) bits.length) bits.length := by
    obtain ⟨k, hk⟩ := Nat.exists_eq_add_of_le' hpos
    rw [hk] at hlt ⊢
    exact signed_fits hlt
  rw [encode_of_fits hpos hunsigned, encode_of_fits hpos hsigned, residue_of_nonneg hlt,
    residue_signed hlt, bitsOf_value]
  exact ⟨rfl, rfl⟩

/-- The signed reading of a residue is the value, if that has a signed reading. -/
theorem signed_residue_of_fits (hw : 1 ≤ width) (hlow : -(modulus (width - 1) : Int) ≤ v)
    (hhigh : v < modulus (width - 1)) : signed (residue v width) width = v := by
  obtain ⟨k, rfl⟩ := Nat.exists_eq_add_of_le' hw
  have hdouble := modulus_succ k
  rw [Nat.add_sub_cancel] at hlow hhigh
  rw [signed_residue]
  exact Int.bmod_eq_of_le (by omega) (by omega)

/-! ### Printing bits and reading them -/

/-- The digit that a bit is printed as. -/
def digit (bit : Bool) : Char := if bit then '1' else '0'

/-- The text has digits, and all of them are binary. -/
def IsBitString (text : String) : Prop :=
  text ≠ "" ∧ ∀ ch ∈ text.toList, ch = '0' ∨ ch = '1'

theorem toList_bitText (bits : List Bool) : (bitText bits).toList = bits.reverse.map digit :=
  String.toList_ofList

theorem length_bitText (bits : List Bool) : (bitText bits).length = bits.length := by
  rw [← String.length_toList, toList_bitText, List.length_map, List.length_reverse]

theorem bitOfDigit?_eq_some_iff {ch : Char} {bit : Bool} :
    bitOfDigit? ch = some bit ↔ ch = digit bit := by
  fun_cases bitOfDigit? ch with
  | case1 => cases bit <;> simp [digit]
  | case2 => cases bit <;> simp [digit]
  | case3 ch hzero hone =>
    cases bit
    · exact iff_of_false nofun hzero
    · exact iff_of_false nofun hone

/-- Digits are read as the bits that they are printed for, and nothing else is read. -/
theorem mapM_bitOfDigit?_eq_some_iff {cs : List Char} :
    cs.mapM bitOfDigit? = some bits ↔ cs = bits.map digit := by
  induction cs generalizing bits with
  | nil => cases bits <;> simp
  | cons ch rest ih =>
    rw [List.mapM_cons]
    cases bits with
    | nil => simp [Option.bind_eq_some_iff]
    | cons bit more => simp [Option.bind_eq_some_iff, bitOfDigit?_eq_some_iff, ih]

/-- Bit strings are what bits are printed as. -/
theorem isBitString_iff : IsBitString text ↔ ∃ bits, bits ≠ [] ∧ bitText bits = text := by
  constructor
  · rintro ⟨hne, hdigits⟩
    have hread : (text.toList.map (· == '1')).map digit = text.toList := by
      rw [List.map_map]
      refine (List.map_congr_left fun ch hch => ?_).trans (List.map_id _)
      rcases hdigits ch hch with rfl | rfl
      · rfl
      · rfl
    refine ⟨(text.toList.map (· == '1')).reverse, ?_, ?_⟩
    · simpa using hne
    · rw [← String.toList_inj, toList_bitText, List.reverse_reverse, hread]
  · rintro ⟨bits, hb, rfl⟩
    refine ⟨fun he => hb ?_, fun ch hch => ?_⟩
    · have hlen := length_bitText bits
      rw [he] at hlen
      exact List.length_eq_zero_iff.mp hlen.symm
    · rw [toList_bitText] at hch
      obtain ⟨bit, -, rfl⟩ := List.mem_map.mp hch
      cases bit
      · exact .inl rfl
      · exact .inr rfl

theorem unsignedOfText_bitText (hb : bits ≠ []) : unsignedOfText (bitText bits) = .ok (value bits) := by
  have hread := mapM_bitOfDigit?_eq_some_iff.mpr (toList_bitText bits)
  rw [unsignedOfText, hread]
  cases hdigits : (bitText bits).toList with
  | nil =>
    rw [toList_bitText, List.map_eq_nil_iff, List.reverse_eq_nil_iff] at hdigits
    exact absurd hdigits hb
  | cons ch rest =>
    show Except.ok (value bits.reverse.reverse) = _
    rw [List.reverse_reverse]

/-- The signed reading of bits that are printed. -/
theorem signedOfText_bitText (hb : bits ≠ []) :
    signedOfText (bitText bits) = .ok (signed (value bits) bits.length) := by
  rw [signedOfText, unsignedOfText_bitText hb, length_bitText]
  rfl

/-- What is no bit string is not read. -/
theorem ofText_error (h : ¬ IsBitString text) :
    unsignedOfText text = .error (.invalidBitString text) ∧
      signedOfText text = .error (.invalidBitString text) := by
  have hunsigned : unsignedOfText text = .error (.invalidBitString text) := by
    rw [unsignedOfText]
    split
    · rename_i ch rest bits hdigits hread
      rw [mapM_bitOfDigit?_eq_some_iff] at hread
      refine absurd (isBitString_iff.mpr ⟨bits.reverse, ?_, ?_⟩) h
      · rintro he
        rw [hread, List.reverse_eq_nil_iff.mp he] at hdigits
        cases hdigits
      · rw [← String.toList_inj, toList_bitText, List.reverse_reverse, hread]
    · rfl
  refine ⟨hunsigned, ?_⟩
  rw [signedOfText, hunsigned]
  rfl

/-- The signed reading of a bit string: a leading one counts negative. -/
theorem signed_value_eq (hb : bits ≠ []) :
    signed (value bits) bits.length =
      if (bitText bits).toList.head? = some '1' then (value bits : Int) - modulus bits.length
      else value bits := by
  have hlt := value_lt bits
  rcases List.eq_nil_or_concat bits with rfl | ⟨xs, x, rfl⟩
  · exact absurd rfl hb
  rw [List.concat_eq_append] at hlt ⊢
  have hhead : (bitText (xs ++ [x])).toList.head? = some (digit x) := by
    rw [toList_bitText, List.reverse_concat]
    rfl
  have hlead := leading_iff xs x
  rw [List.length_append, List.length_singleton] at hlt ⊢
  rw [hhead]
  rcases signed_cases hlt with ⟨hlow, hs⟩ | ⟨hhigh, hs⟩
  · have hx : x ≠ true := fun hx => by
      have := hlead.mpr hx
      omega
    obtain rfl : x = false := by simpa using hx
    simpa [digit] using hs
  · obtain rfl := hlead.mp hhigh
    simpa [digit] using hs

/-- The bits that a text spells, the last one first. -/
theorem reverse_bitText (bits : List Bool) : (bitText bits).toList.reverse.map (· == '1') = bits := by
  rw [toList_bitText, ← List.map_reverse, List.reverse_reverse, List.map_map]
  refine (List.map_congr_left fun bit _ => ?_).trans (List.map_id _)
  cases bit
  · rfl
  · rfl

/-! ### Reading back -/

/-- A bit string has two readings, and its width stores either one as the string. -/
theorem ofText_ok (h : IsBitString text) :
    ∃ (n : Nat) (z : Int), unsignedOfText text = .ok n ∧ n < modulus text.length ∧
      signedOfText text = .ok z ∧
      z = (if text.toList.head? = some '1' then (n : Int) - modulus text.length else n) ∧
      encode n text.length = .ok (text.toList.reverse.map (· == '1')) ∧
      encode z text.length = .ok (text.toList.reverse.map (· == '1')) := by
  obtain ⟨bits, hb, rfl⟩ := isBitString_iff.mp h
  obtain ⟨hunsigned, hsigned⟩ := encode_readings hb
  refine ⟨_, _, unsignedOfText_bitText hb, ?_, signedOfText_bitText hb, ?_, ?_, ?_⟩
  · rw [length_bitText]
    exact value_lt bits
  · rw [length_bitText]
    exact signed_value_eq hb
  · rw [length_bitText, reverse_bitText, hunsigned]
  · rw [length_bitText, reverse_bitText, hsigned]

/-- A value that is stored and printed is read back by the readings that have it. -/
theorem ofText_encode (hw : 1 ≤ width) (h : encode v width = .ok bits) :
    (0 ≤ v → unsignedOfText (bitText bits) = .ok v.toNat) ∧
      (v < modulus (width - 1) → signedOfText (bitText bits) = .ok v) := by
  have hholds : Holdable v width := by
    by_contra hnot
    rw [encode_of_not_holdable hnot] at h
    cases h
  obtain ⟨hlow, hhigh⟩ := hholds.fits
  rw [encode_of_holdable hholds] at h
  obtain rfl := Except.ok.inj h
  have hvalue : value (bitsOf width (residue v width)) = residue v width := by
    rw [value_bitsOf, Nat.mod_eq_of_lt (residue_lt v width)]
  have hb : bitsOf width (residue v width) ≠ [] := by
    rw [← List.length_pos_iff, length_bitsOf]
    exact hw
  rw [unsignedOfText_bitText hb, signedOfText_bitText hb, hvalue, length_bitsOf]
  constructor
  · intro hpos
    obtain ⟨n, rfl⟩ := Int.eq_ofNat_of_zero_le hpos
    rw [residue_of_nonneg (Int.ofNat_lt.mp hhigh), Int.toNat_natCast]
  · intro hv
    rw [signed_residue_of_fits hw hlow hv]

/-- Storing values and reading bit strings undo each other. A width stores exactly the values that it
holds, bit by bit as their residues; exactly the bit strings are read, as two numbers that are stored as
the string; and what is stored and printed is read back, unsigned if it is no less than zero and signed
if it lies below half of the modulus. -/
theorem encoding_reads_back :
    (∀ v width,
      (Holdable v width → ∃ bits, encode v width = .ok bits ∧ bits.length = width ∧
        ∀ i < width, bits[i]? = some ((residue v width).testBit i)) ∧
      (¬ Holdable v width → encode v width = .error (.tooWide v width))) ∧
    (∀ text : String,
      (IsBitString text →
        ∃ (n : Nat) (z : Int), unsignedOfText text = .ok n ∧ n < modulus text.length ∧
          signedOfText text = .ok z ∧
          z = (if text.toList.head? = some '1' then (n : Int) - modulus text.length else n) ∧
          encode n text.length = .ok (text.toList.reverse.map (· == '1')) ∧
          encode z text.length = .ok (text.toList.reverse.map (· == '1'))) ∧
      (¬ IsBitString text → unsignedOfText text = .error (.invalidBitString text) ∧
        signedOfText text = .error (.invalidBitString text))) ∧
    (∀ v width bits, 1 ≤ width → encode v width = .ok bits →
      (0 ≤ v → unsignedOfText (bitText bits) = .ok v.toNat) ∧
      (v < modulus (width - 1) → signedOfText (bitText bits) = .ok v)) := by
  refine ⟨fun v width => ⟨fun h => ?_, encode_of_not_holdable⟩, fun text => ⟨ofText_ok, ofText_error⟩,
    fun v width bits hw h => ofText_encode hw h⟩
  exact ⟨_, encode_of_holdable h, length_bitsOf .., fun i hi => getElem?_bitsOf hi⟩

/-- Three bits hold the numbers from -4 to 7; the lowest of them is stored as the unsigned 4 is. -/
theorem encoding_reads_back_lowest :
    encode (-5) 3 = .error (.tooWide (-5) 3) ∧ encode 8 3 = .error (.tooWide 8 3) ∧
      (∃ bits, encode (-4) 3 = .ok bits ∧ bits.length = 3 ∧
        ∀ i < 3, bits[i]? = some ((residue (-4) 3).testBit i)) ∧
      bitText [false, false, true] = "100" ∧ signedOfText "100" = .ok (-4) ∧
      unsignedOfText "100" = .ok 4 ∧ encode 4 3 = .ok [false, false, true] ∧
      unsignedOfText "" = .error (.invalidBitString "") := by
  obtain ⟨hstore, hread, hback⟩ := encoding_reads_back
  exact ⟨(hstore (-5) 3).2 (by decide), (hstore 8 3).2 (by decide), (hstore (-4) 3).1 (by decide), rfl,
    (hback (-4) 3 [false, false, true] (by decide) rfl).2 (by decide),
    (hback 4 3 [false, false, true] (by decide) rfl).1 (by decide), rfl,
    ((hread "").2 fun h => h.1 rfl).1⟩

end GateNet.TwosComplement
