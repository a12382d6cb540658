import GateNet.Proofs.Gadget.Adder

/-!
What comparators decide. A walk from the highest pair of bits down holds the decision of the pairs seen
so far and whether they were all equal; so it ends with the order of the numbers that the remaining bits
spell, unless an earlier pair has decided. Signed and unsigned comparisons differ in what the sign bits
decide.
-/

namespace GateNet

open Circuit hiding value
open TwosComplement

namespace TwosComplement

variable {k m n : Nat}

/-- Of two numbers, the one whose leading bit alone is set is the greater; of equal leading bits, the
rest decides. -/
theorem less_cons (x y : Bool) {xs ys : List Bool} (hlen : xs.length = ys.length) :
    decide (value (x :: xs).reverse < value (y :: ys).reverse) =
      (!x && y || (x == y) && decide (value xs.reverse < value ys.reverse)) := by
  have hx := value_lt xs.reverse
  have hy := value_lt ys.reverse
  rw [List.length_reverse] at hx hy
  rw [← hlen] at hy
  simp only [List.reverse_cons, value_concat, List.length_reverse, ← hlen]
  cases x <;> cases y <;> simp <;> omega

/-- What is left of a number without its leading bit. -/
theorem mod_half (hn : n < modulus (k + 1)) :
    n % modulus k = if modulus k ≤ n then n - modulus k else n := by
  have hdouble := modulus_succ k
  split
  · rename_i h
    rw [Nat.mod_eq_sub_mod h, Nat.mod_eq_of_lt (by omega)]
  · exact Nat.mod_eq_of_lt (by omega)

/-- The decision on signed numbers: of different signs the negative one is less. -/
theorem signed_less (hm : m < modulus (k + 1)) (hn : n < modulus (k + 1)) :
    decide (signed m (k + 1) < signed n (k + 1)) =
      (decide (modulus k ≤ m) && !decide (modulus k ≤ n) ||
        (decide (modulus k ≤ m) == decide (modulus k ≤ n)) &&
          decide (m % modulus k < n % modulus k)) := by
  have hdouble := modulus_succ k
  rw [mod_half hm, mod_half hn]
  rcases signed_cases hm with ⟨hm', hsm⟩ | ⟨hm', hsm⟩
  · rcases signed_cases hn with ⟨hn', hsn⟩ | ⟨hn', hsn⟩
    · simp [hsm, hsn, Nat.not_le.mpr hm', Nat.not_le.mpr hn']
    · simp [hsm, hsn, Nat.not_le.mpr hm', hn']
      omega
  · rcases signed_cases hn with ⟨hn', hsn⟩ | ⟨hn', hsn⟩
    · simp [hsm, hsn, hm', Nat.not_le.mpr hn']
      omega
    · simp [hsm, hsn, hm', hn']
      omega

/-- The decision on unsigned numbers: of different leading bits the clear one is less. -/
theorem unsigned_less (hm : m < modulus (k + 1)) (hn : n < modulus (k + 1)) :
    decide (m < n) =
      (!decide (modulus k ≤ m) && decide (modulus k ≤ n) ||
        (decide (modulus k ≤ m) == decide (modulus k ≤ n)) &&
          decide (m % modulus k < n % modulus k)) := by
  rw [mod_half hm, mod_half hn]
  by_cases hm' : modulus k ≤ m
  · by_cases hn' : modulus k ≤ n
    · simp [hm', hn']
      omega
    · simp [hm', hn']
      omega
  · by_cases hn' : modulus k ≤ n
    · simp [hm', hn']
      omega
    · simp [hm', hn']

/-- Numbers with one signed reading are the same. -/
theorem signed_injective (hm : m < modulus (k + 1)) (hn : n < modulus (k + 1)) :
    signed m (k + 1) = signed n (k + 1) ↔ m = n := by
  have hdouble := modulus_succ k
  rcases signed_cases hm with ⟨hm', hsm⟩ | ⟨hm', hsm⟩
  · rcases signed_cases hn with ⟨hn', hsn⟩ | ⟨hn', hsn⟩
    · omega
    · omega
  · rcases signed_cases hn with ⟨hn', hsn⟩ | ⟨hn', hsn⟩
    · omega
    · omega

end TwosComplement

namespace Word

variable {c d : Circuit} {v : Nat → Option Bool} {u w : Word} {k m n : Nat}

/-! ### Leading bits -/

/-- A word of at least one bit is its lower bits and its leading bit. -/
theorem Holds.leading (hu : Holds c v u m) (hk : u.width = k + 1) :
    ∃ as a xs, u.bits = as ++ [a] ∧ Spells c v as xs ∧ Carries c v a (decide (modulus k ≤ m)) ∧
      xs.length = k ∧ value xs = m % modulus k := by
  obtain ⟨ys, hys, rfl⟩ := hu
  have hlen : ys.length = k + 1 := hys.length_eq.symm.trans hk
  obtain ⟨xs, x, rfl⟩ : ∃ xs x, ys = xs ++ [x] := by
    rcases List.eq_nil_or_concat ys with rfl | ⟨xs, x, rfl⟩
    · simp at hlen
    · exact ⟨xs, x, List.concat_eq_append⟩
  obtain rfl : xs.length = k := by simpa using hlen
  have hlow := List.forall₂_take_append _ _ _ hys
  obtain ⟨a, rest, ha, hrest, htop⟩ :=
    List.forall₂_cons_right_iff.mp (List.forall₂_drop_append _ _ _ hys)
  obtain rfl : rest = [] := List.forall₂_nil_right_iff.mp hrest
  have hlead : decide (modulus xs.length ≤ value (xs ++ [x])) = x := by
    rw [Bool.eq_iff_iff, decide_eq_true_iff, leading_iff]
  refine ⟨_, a, xs, ?_, hlow, ?_, rfl, ?_⟩
  · rw [← htop, List.take_append_drop]
  · rwa [hlead]
  · rw [value_concat, Nat.add_mul_mod_self_left, Nat.mod_eq_of_lt (value_lt xs)]

theorem makes_msb (h : Buildable c) (hu : Holds c v u m) (hk : u.width = k + 1) :
    Makes v c (liftM u.msb : Build Nat) fun w d => Carries d v w (decide (modulus k ≤ m)) := by
  obtain ⟨as, a, xs, hbits, -, ha, -, -⟩ := hu.leading hk
  have hmsb : u.msb = .ok a := by simp [msb, hbits]
  rw [hmsb]
  exact .pure h ha

/-! ### The order -/

variable {result equal : Nat} {r e : Bool} {ps : List (Nat × Nat)} {qs : List (Bool × Bool)}

/-- A walk down some pairs ends in the decision so far, or, if all pairs were equal so far, in the order
of the numbers that the pairs spell. -/
theorem makes_lessBelow (h : Buildable c) (hr : Carries c v result r) (he : Carries c v equal e)
    (hp : List.Forall₂ (CarriesPair c v) ps qs) :
    Makes v c (lessBelow result equal ps) fun w d => Carries d v w
      (r || e && decide (value (qs.map Prod.fst).reverse < value (qs.map Prod.snd).reverse)) := by
  induction ps generalizing c result equal r e qs with
  | nil =>
    cases hp
    exact .pure h (by simpa using hr)
  | cons p rest ih =>
    obtain ⟨⟨x, y⟩, qs, ⟨hx, hy⟩, hrest, rfl⟩ := List.forall₂_cons_left_iff.mp hp
    have hlen : (qs.map Prod.fst).length = (qs.map Prod.snd).length := by simp
    rw [List.map_cons, List.map_cons, less_cons x y hlen]
    refine (makes_invert h hx).bind fun notA d₁ adv₁ hnot => ?_
    refine (Build.makes_and adv₁.built hnot (hy.after adv₁)).bind fun below d₂ adv₂ hbelow => ?_
    refine (Build.makes_and adv₂.built hbelow (he.after (adv₁.trans adv₂))).bind
      fun decided d₃ adv₃ hdecided => ?_
    have adv := (adv₁.trans adv₂).trans adv₃
    refine (Build.makes_or adv₃.built (hr.after adv) hdecided).bind fun result' d₄ adv₄ hr' => ?_
    have adv := adv.trans adv₄
    cases rest with
    | nil =>
      cases hrest
      refine .pure adv₄.built ?_
      cases r <;> cases e <;> simpa using hr'
    | cons next more =>
      refine (Build.makes_bitEqual adv₄.built (hx.after adv) (hy.after adv)).bind
        fun same d₅ adv₅ hsame => ?_
      have he := he.after (adv.trans adv₅)
      refine (Build.makes_and adv₅.built he hsame).bind fun equal' d₆ adv₆ he' => ?_
      have hr' := hr'.after (adv₅.trans adv₆)
      have hrest := hrest.imp fun _ _ hp => hp.after ((adv.trans adv₅).trans adv₆)
      refine (ih adv₆.built hr' he' hrest).imp fun w d _ hw => ?_
      cases r <;> cases e <;> simpa [Bool.or_assoc, Bool.and_assoc] using hw

/-- From what the leading bits decide, a walk down all pairs finds the order. -/
theorem makes_lessFromTop (h : Buildable c) (hs : Carries c v result r) (hu : Holds c v u m)
    (hw : Holds c v w n) (hwidth : u.width = w.width) (hk : u.width = k + 1) :
    Makes v c (lessFromTop u w result) fun b d => Carries d v b
      (r || (decide (modulus k ≤ m) == decide (modulus k ≤ n)) &&
        decide (m % modulus k < n % modulus k)) := by
  obtain ⟨as, a, xs, hub, has, ha, hxs, hxv⟩ := hu.leading hk
  obtain ⟨bs, b, ys, hwb, hbs, hb, hys, hyv⟩ := hw.leading (hwidth.symm.trans hk)
  have hlen : as.length = bs.length := by
    rw [has.length_eq, hbs.length_eq, hxs, hys]
  have hpairs : pairsFromTop u w = (a, b) :: (as.zip bs).reverse := by
    rw [pairsFromTop, hub, hwb, List.zip_append hlen]
    simp
  rw [lessFromTop, hpairs]
  refine (makes_requireSameWidth h hwidth).bind fun _ d adv _ => ?_
  refine (makes_constant v adv.built true).bind fun start d₁ adv₁ hstart => ?_
  have adv := adv.trans adv₁
  refine (Build.makes_bitEqual adv₁.built (ha.after adv) (hb.after adv)).bind
    fun same d₂ adv₂ hsame => ?_
  refine (Build.makes_and adv₂.built (hstart.after adv₂) hsame).bind fun equal d₃ adv₃ hequal => ?_
  have adv := (adv.trans adv₂).trans adv₃
  have hrest := List.rel_reverse ((has.after adv).zip (hbs.after adv))
  refine (makes_lessBelow adv₃.built (hs.after adv) hequal hrest).imp fun b d _ hb => ?_
  have hfst : (xs.zip ys).map Prod.fst = xs := List.map_fst_zip (by omega)
  have hsnd : (xs.zip ys).map Prod.snd = ys := List.map_snd_zip (by omega)
  rw [List.map_reverse, List.map_reverse, List.reverse_reverse, List.reverse_reverse, hfst, hsnd, hxv,
    hyv, Bool.true_and] at hb
  exact hb

/-- Signed comparison decides the order of the signed readings. -/
theorem makes_less (h : Buildable c) (hu : Holds c v u m) (hw : Holds c v w n)
    (hwidth : u.width = w.width) (hk : u.width = k + 1) :
    Makes v c (less u w) fun b d =>
      Carries d v b (decide (signed m (k + 1) < signed n (k + 1))) := by
  have hm : m < modulus (k + 1) := hk ▸ hu.lt
  have hn : n < modulus (k + 1) := (hwidth.symm.trans hk) ▸ hw.lt
  rw [signed_less hm hn]
  refine (makes_requireSameWidth h hwidth).bind fun _ d₀ adv₀ _ => ?_
  refine (makes_msb adv₀.built (hw.after adv₀) (hwidth.symm.trans hk)).bind
    fun topB d₁ adv₁ htopB => ?_
  refine (makes_invert adv₁.built htopB).bind fun notB d₂ adv₂ hnotB => ?_
  have adv := (adv₀.trans adv₁).trans adv₂
  refine (makes_msb adv₂.built (hu.after adv) hk).bind fun topA d₃ adv₃ htopA => ?_
  refine (Build.makes_and adv₃.built htopA (hnotB.after adv₃)).bind fun signs d₄ adv₄ hsigns => ?_
  have adv := (adv.trans adv₃).trans adv₄
  exact makes_lessFromTop adv₄.built hsigns (hu.after adv) (hw.after adv) hwidth hk

/-- Unsigned comparison decides the order of the numbers themselves. -/
theorem makes_lessUnsigned (h : Buildable c) (hu : Holds c v u m) (hw : Holds c v w n)
    (hwidth : u.width = w.width) (hk : u.width = k + 1) :
    Makes v c (lessUnsigned u w) fun b d => Carries d v b (decide (m < n)) := by
  have hm : m < modulus (k + 1) := hk ▸ hu.lt
  have hn : n < modulus (k + 1) := (hwidth.symm.trans hk) ▸ hw.lt
  rw [unsigned_less hm hn]
  refine (makes_requireSameWidth h hwidth).bind fun _ d₀ adv₀ _ => ?_
  refine (makes_msb adv₀.built (hu.after adv₀) hk).bind fun topA d₁ adv₁ htopA => ?_
  refine (makes_invert adv₁.built htopA).bind fun notA d₂ adv₂ hnotA => ?_
  have adv := (adv₀.trans adv₁).trans adv₂
  refine (makes_msb adv₂.built (hw.after adv) (hwidth.symm.trans hk)).bind
    fun topB d₃ adv₃ htopB => ?_
  refine (Build.makes_and adv₃.built (hnotA.after adv₃) htopB).bind fun signs d₄ adv₄ hsigns => ?_
  have adv := (adv.trans adv₃).trans adv₄
  exact makes_lessFromTop adv₄.built hsigns (hu.after adv) (hw.after adv) hwidth hk

/-! ### Equality -/

theorem makes_equalFrom (h : Buildable c) (hr : Carries c v result r)
    (hp : List.Forall₂ (CarriesPair c v) ps qs) :
    Makes v c (equalFrom result ps) fun b d => Carries d v b (r && qs.all fun q => q.1 == q.2) := by
  induction ps generalizing c result r qs with
  | nil =>
    cases hp
    exact .pure h (by simpa using hr)
  | cons p rest ih =>
    obtain ⟨⟨x, y⟩, qs, ⟨hx, hy⟩, hrest, rfl⟩ := List.forall₂_cons_left_iff.mp hp
    refine (Build.makes_bitEqual h hx hy).bind fun same d₁ adv₁ hsame => ?_
    refine (Build.makes_and adv₁.built (hr.after adv₁) hsame).bind fun result' d₂ adv₂ hr' => ?_
    have hrest := hrest.imp fun _ _ hp => hp.after (adv₁.trans adv₂)
    refine (ih adv₂.built hr' hrest).imp fun b d _ hb => ?_
    rwa [List.all_cons, ← Bool.and_assoc]

/-- Pairs of bits are all equal exactly if the numbers are. -/
theorem all_equal_iff {xs ys : List Bool} (hlen : xs.length = ys.length) :
    ((xs.zip ys).all fun q => q.1 == q.2) = decide (value xs = value ys) := by
  induction xs generalizing ys with
  | nil =>
    cases List.length_eq_zero_iff.mp hlen.symm
    rfl
  | cons x xs ih =>
    obtain ⟨y, ys, rfl⟩ := List.exists_cons_of_length_eq_add_one hlen.symm
    have hlen : xs.length = ys.length := by simpa using hlen
    rw [List.zip_cons_cons, List.all_cons, ih hlen, value_cons, value_cons]
    cases x <;> cases y <;> simp <;> omega

/-- Words of one width are compared for equality. -/
theorem makes_equal (h : Buildable c) (hu : Holds c v u m) (hw : Holds c v w n)
    (hwidth : u.width = w.width) :
    Makes v c (Word.equal u w) fun b d => Carries d v b (decide (m = n)) := by
  obtain ⟨xs, hxs, rfl⟩ := hu
  obtain ⟨ys, hys, rfl⟩ := hw
  refine (makes_requireSameWidth h hwidth).bind fun _ d adv _ => ?_
  refine (makes_constant v adv.built true).bind fun start d₁ adv₁ hstart => ?_
  have adv := adv.trans adv₁
  refine (makes_equalFrom adv₁.built hstart ((hxs.after adv).zip (hys.after adv))).imp
    fun b d _ hb => ?_
  rwa [all_equal_iff (hxs.length_eq.symm.trans (hwidth.trans hys.length_eq)), Bool.true_and] at hb

/-! ### The order with equality -/

theorem makes_lessOrEqual (h : Buildable c) (hu : Holds c v u m) (hw : Holds c v w n)
    (hwidth : u.width = w.width) (hk : u.width = k + 1) :
    Makes v c (lessOrEqual u w) fun b d =>
      Carries d v b (decide (signed m (k + 1) ≤ signed n (k + 1))) := by
  have hm : m < modulus (k + 1) := hk ▸ hu.lt
  have hn : n < modulus (k + 1) := (hwidth.symm.trans hk) ▸ hw.lt
  refine (makes_less h hu hw hwidth hk).bind fun lt d₁ adv₁ hlt => ?_
  refine (makes_equal adv₁.built (hu.after adv₁) (hw.after adv₁) hwidth).bind fun eq d₂ adv₂ heq => ?_
  refine (Build.makes_or adv₂.built (hlt.after adv₂) heq).imp fun b d _ hb => ?_
  have hsplit : signed m (k + 1) ≤ signed n (k + 1) ↔ signed m (k + 1) < signed n (k + 1) ∨ m = n := by
    rw [← signed_injective hm hn]
    omega
  rwa [decide_eq_decide.mpr hsplit, Bool.decide_or]

theorem makes_lessOrEqualUnsigned (h : Buildable c) (hu : Holds c v u m) (hw : Holds c v w n)
    (hwidth : u.width = w.width) (hk : u.width = k + 1) :
    Makes v c (lessOrEqualUnsigned u w) fun b d => Carries d v b (decide (m ≤ n)) := by
  refine (makes_lessUnsigned h hu hw hwidth hk).bind fun lt d₁ adv₁ hlt => ?_
  refine (makes_equal adv₁.built (hu.after adv₁) (hw.after adv₁) hwidth).bind fun eq d₂ adv₂ heq => ?_
  refine (Build.makes_or adv₂.built (hlt.after adv₂) heq).imp fun b d _ hb => ?_
  rwa [decide_eq_decide.mpr Nat.le_iff_lt_or_eq, Bool.decide_or]

/-! ### How comparators are wired -/

variable {given : List Nat} {α : Type} {a b : Word}

/-- The decision so far is settled, so the decision is. -/
theorem settles_lessBelow (hr : result ∈ given) (equal : Nat) (ps : List (Nat × Nat)) :
    Build.Settles given (lessBelow result equal ps) fun w => [w] := by
  induction ps generalizing result equal given with
  | nil => exact .pure (by simpa using hr)
  | cons p rest ih =>
    refine .after (.invert _) fun notA => .after (.gate ..) fun below => ?_
    refine .after (.gate ..) fun decided => .bind (.gate ..) (Build.settles_addGate ..) fun result => ?_
    cases rest with
    | nil => exact .pure (by simp)
    | cons next more =>
      exact .after (Build.assembled_bitEqual ..) fun same => .after (.gate ..) fun equal =>
        ih (by simp) equal

theorem settles_lessFromTop (hr : result ∈ given) (a b : Word) :
    Build.Settles given (lessFromTop a b result) fun w => [w] := by
  refine .after (assembled_requireSameWidth a b) fun _ => ?_
  cases pairsFromTop a b with
  | nil => exact .fault
  | cons top rest =>
    exact .after (.wire _) fun start => .after (Build.assembled_bitEqual ..) fun same =>
      .after (.gate ..) fun equal => settles_lessBelow hr equal rest

theorem settles_less (a b : Word) : Build.Settles given (less a b) fun w => [w] :=
  .after (assembled_requireSameWidth a b) fun _ => .after (assembled_msb b) fun topB =>
    .after (.invert topB) fun notB => .after (assembled_msb a) fun topA =>
    .bind (.gate ..) (Build.settles_addGate ..) fun signs => settles_lessFromTop (by simp) a b

theorem settles_lessUnsigned (a b : Word) : Build.Settles given (lessUnsigned a b) fun w => [w] :=
  .after (assembled_requireSameWidth a b) fun _ => .after (assembled_msb a) fun topA =>
    .after (.invert topA) fun notA => .after (assembled_msb b) fun topB =>
    .bind (.gate ..) (Build.settles_addGate ..) fun signs => settles_lessFromTop (by simp) a b

theorem settles_equalFrom (hr : result ∈ given) (ps : List (Nat × Nat)) :
    Build.Settles given (equalFrom result ps) fun w => [w] := by
  induction ps generalizing result given with
  | nil => exact .pure (by simpa using hr)
  | cons p rest ih =>
    exact .after (Build.assembled_bitEqual ..) fun same =>
      .bind (.gate ..) (Build.settles_addGate ..) fun result => ih (by simp)

/-- To tell that one bit is below another is to consult both. -/
theorem consults_below {w a b : Nat} {f : Nat → Build α} (hw : w = a ∨ w = b)
    (hf : ∀ n, Build.Assembled (f n)) :
    Build.Consults w (do let notA ← Build.invert a; let below ← Build.and notA b; f below) := by
  rcases hw with rfl | rfl
  · exact .invert (fun notA => .bind (.gate ..) hf) fun notA => .first (.gate (.inl rfl)) (.gate ..) hf
  · exact .after (.invert a) fun notA => .first (.gate (.inr rfl)) (.gate ..) hf

theorem consults_bitEqual {w a b : Nat} (hw : w = a ∨ w = b) :
    Build.Consults w (Build.bitEqual a b) :=
  .first (.gate hw) (.gate ..) fun differ => .invert differ

theorem consults_lessBelow {w : Nat} {p : Nat × Nat} (hp : p ∈ ps) (hw : w = p.1 ∨ w = p.2)
    (result equal : Nat) : Build.Consults w (lessBelow result equal ps) := by
  induction ps generalizing result equal with
  | nil => cases hp
  | cons q rest ih =>
    rcases List.mem_cons.mp hp with rfl | hp
    · refine consults_below hw fun below => ?_
      refine .bind (.gate ..) fun decided => .bind (.gate ..) fun result => ?_
      cases rest with
      | nil => exact .pure _
      | cons next more =>
        exact .bind (Build.assembled_bitEqual ..) fun same => .bind (.gate ..) fun equal =>
          assembled_lessBelow ..
    · refine .after (.invert _) fun notA => .after (.gate ..) fun below => ?_
      refine .after (.gate ..) fun decided => .after (.gate ..) fun result => ?_
      cases rest with
      | nil => cases hp
      | cons next more =>
        exact .after (Build.assembled_bitEqual ..) fun same => .after (.gate ..) fun equal =>
          ih hp result equal

theorem consults_lessFromTop {w : Nat} (hw : w ∈ a.bits ++ b.bits) (signs : Nat) :
    Build.Consults w (lessFromTop a b signs) := by
  refine consults_sameWidth fun hwidth => ?_
  obtain ⟨p, hp, hpair⟩ := exists_pair hwidth hw
  have hp : p ∈ pairsFromTop a b := List.mem_reverse.mpr hp
  cases htop : pairsFromTop a b with
  | nil =>
    rw [htop] at hp
    cases hp
  | cons top rest =>
    rw [htop] at hp
    refine .after (.wire _) fun start => ?_
    rcases List.mem_cons.mp hp with rfl | hp
    · exact .first (consults_bitEqual hpair) (Build.assembled_bitEqual ..) fun same =>
        .bind (.gate ..) fun equal => assembled_lessBelow ..
    · exact .after (Build.assembled_bitEqual ..) fun same => .after (.gate ..) fun equal =>
        consults_lessBelow hp hpair signs equal

theorem consults_less {w : Nat} (hw : w ∈ a.bits ++ b.bits) : Build.Consults w (less a b) :=
  .after (assembled_requireSameWidth a b) fun _ => .after (assembled_msb b) fun topB =>
    .after (.invert topB) fun _ => .after (assembled_msb a) fun _ =>
    .after (.gate ..) fun signs => consults_lessFromTop hw signs

theorem consults_lessUnsigned {w : Nat} (hw : w ∈ a.bits ++ b.bits) :
    Build.Consults w (lessUnsigned a b) :=
  .after (assembled_requireSameWidth a b) fun _ => .after (assembled_msb a) fun topA =>
    .after (.invert topA) fun _ => .after (assembled_msb b) fun _ =>
    .after (.gate ..) fun signs => consults_lessFromTop hw signs

theorem consults_equalFrom {w : Nat} {p : Nat × Nat} (hp : p ∈ ps) (hw : w = p.1 ∨ w = p.2)
    (result : Nat) : Build.Consults w (equalFrom result ps) := by
  induction ps generalizing result with
  | nil => cases hp
  | cons q rest ih =>
    rcases List.mem_cons.mp hp with rfl | hp
    · exact .first (consults_bitEqual hw) (Build.assembled_bitEqual ..) fun same =>
        .bind (.gate ..) fun result => assembled_equalFrom ..
    · exact .after (Build.assembled_bitEqual ..) fun same => .after (.gate ..) fun result =>
        ih hp result

theorem gadget_less (a b : Word) : Gadget a b (less a b) fun w => [w] where
  assembled := assembled_less a b
  settles := settles_less a b
  consults _ := consults_less

theorem gadget_lessUnsigned (a b : Word) : Gadget a b (lessUnsigned a b) fun w => [w] where
  assembled := assembled_lessUnsigned a b
  settles := settles_lessUnsigned a b
  consults _ := consults_lessUnsigned

theorem gadget_equal (a b : Word) : Gadget a b (Word.equal a b) fun w => [w] where
  assembled := assembled_equal a b
  settles := .after (assembled_requireSameWidth a b) fun _ =>
    .bind (.wire _) (Build.settles_constant true) fun start => settles_equalFrom (List.mem_cons_self ..) _
  consults w hw := consults_sameWidth fun hwidth => .after (.wire _) fun start => by
    obtain ⟨p, hp, hpair⟩ := exists_pair hwidth hw
    exact consults_equalFrom hp hpair start

/-- A comparator stays a gadget with equality added. -/
theorem Gadget.orEqual {less : Build Nat} (h : Gadget a b less fun w => [w]) :
    Gadget a b (do let lt ← less; let eq ← Word.equal a b; Build.or lt eq) fun w => [w] where
  assembled := .bind h.assembled fun _ => .bind (assembled_equal a b) fun _ => .gate ..
  settles := .after h.assembled fun _ => .after (assembled_equal a b) fun _ =>
    Build.settles_addGate ..
  consults w hw := .first (h.consults w hw) h.assembled fun _ =>
    .bind (assembled_equal a b) fun _ => .gate ..

/-! ### What comparators decide -/

/-- Comparators decide the order of the numbers that the words are read as, signed or unsigned, and
whether these are equal. -/
theorem decides_order (hc : Reachable c) (ho : c.origin ≠ .netlist) (hwidth : a.width = b.width)
    (ha : ∀ w ∈ a.bits, Usable c w) (hb : ∀ w ∈ b.bits, Usable c w) :
    (1 ≤ a.width →
      Computes c a b (less a b) decodeSigned (fun x y w e =>
        e.value w = .ok (some (decide (x < y)))) ∧
      Computes c a b (lessOrEqual a b) decodeSigned (fun x y w e =>
        e.value w = .ok (some (decide (x ≤ y)))) ∧
      Computes c a b (lessUnsigned a b) decodeUnsigned (fun m n w e =>
        e.value w = .ok (some (decide (m < n)))) ∧
      Computes c a b (lessOrEqualUnsigned a b) decodeUnsigned (fun m n w e =>
        e.value w = .ok (some (decide (m ≤ n))))) ∧
    Computes c a b (Word.equal a b) decodeUnsigned (fun m n w e =>
      e.value w = .ok (some (decide (m = n)))) := by
  have h : Buildable c := ⟨hc.complemented, ho⟩
  refine ⟨fun hpos => ?_, ?_⟩
  · obtain ⟨k, hk⟩ := Nat.exists_eq_add_of_le' hpos
    refine ⟨?_, ?_, ?_, ?_⟩
    · have hless : Computes c a b (less a b) decodeUnsigned fun m n w e =>
          e.value w = .ok (some (decide (signed m a.width < signed n b.width))) :=
        (gadget_less a b).computes_bit h ha hb fun v m n hm hn => by
          rw [← hwidth, hk]
          exact makes_less h hm hn hwidth hk
      exact hless.signed fun m n w e _ _ hw => hw
    · have hless : Computes c a b (lessOrEqual a b) decodeUnsigned fun m n w e =>
          e.value w = .ok (some (decide (signed m a.width ≤ signed n b.width))) :=
        (gadget_less a b).orEqual.computes_bit h ha hb fun v m n hm hn => by
          rw [← hwidth, hk]
          exact makes_lessOrEqual h hm hn hwidth hk
      exact hless.signed fun m n w e _ _ hw => hw
    · exact (gadget_lessUnsigned a b).computes_bit h ha hb fun v m n hm hn =>
        makes_lessUnsigned h hm hn hwidth hk
    · exact (gadget_lessUnsigned a b).orEqual.computes_bit h ha hb fun v m n hm hn =>
        makes_lessOrEqualUnsigned h hm hn hwidth hk
  · exact (gadget_equal a b).computes_bit h ha hb fun v m n hm hn => makes_equal h hm hn hwidth

/-- Two words share an input and a constant. As signed numbers minus two is less than one. -/
theorem decides_order_shared :
    ∃ c w d, Supplied c ∧ less ⟨[1, 0]⟩ ⟨[0, 1]⟩ c = .ok (w, d) ∧ d.execute.failure = none ∧
      decodeSigned ⟨[1, 0]⟩ d.execute.state = .ok (-2) ∧
      decodeSigned ⟨[0, 1]⟩ d.execute.state = .ok 1 ∧
      d.execute.state.value w = .ok (some true) := by
  obtain ⟨c, hs, ho, husable, hrun⟩ :
      ∃ c, Supplied c ∧ c.origin = .synthesis ∧ (∀ w ∈ [0, 1], Usable c w) ∧
        (less ⟨[1, 0]⟩ ⟨[0, 1]⟩ c).map (fun p => (p.2.execute.failure,
          decodeSigned ⟨[1, 0]⟩ p.2.execute.state, decodeSigned ⟨[0, 1]⟩ p.2.execute.state)) =
            .ok (none, .ok (-2), .ok 1) := by
    have hinput := Supplied.empty.supplies (supplies_build .issueInput rfl)
    have hassigned := hinput.supplies
      (supplies_of_assigns (.assign 0 true) nofun rfl fun w hw _ => by cases hw; rfl)
    have hconst := hassigned.supplies (supplies_build (.constant false) rfl)
    refine ⟨_, hconst, rfl, List.forall_mem_cons.mpr ⟨.inl (.inl rfl), ?_⟩, by decide +kernel⟩
    exact List.forall_mem_singleton.mpr (.inr ⟨false, rfl, rfl, nofun, rfl⟩)
  obtain ⟨horder, -⟩ := decides_order (a := ⟨[1, 0]⟩) (b := ⟨[0, 1]⟩) hs.reachable (by simp [ho]) rfl
    (fun w hw => husable w (List.mem_reverse.mp hw)) husable
  obtain ⟨⟨w, d, hless, horder⟩, -⟩ := horder (by decide)
  rw [hless] at hrun
  obtain ⟨hok, ha, hb⟩ : _ ∧ _ ∧ _ := by simpa [Except.map] using hrun
  obtain ⟨-, horder⟩ := horder _ ⟨d, .refl, hok, rfl⟩
  exact ⟨c, w, d, hs, hless, hok, ha, hb, horder (-2) 1 ha hb⟩

end Word

end GateNet
