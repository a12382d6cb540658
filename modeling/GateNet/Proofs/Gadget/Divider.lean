import Mathlib.Tactic.Ring
import GateNet.Proofs.Gadget.Comparator

/-!
What the divider computes. The invariant of its loop is that of long division: the remainder is less
than the divisor, and the bits brought down so far are the quotient times the divisor, plus the
remainder. So the magnitudes are divided, and the signs decide whether the quotient is negated. The
divisor zero goes in at every step; some bits come out, as for any other divisor.
-/

namespace GateNet

open Circuit hiding value
open TwosComplement

namespace TwosComplement

variable {k m n : Nat}

theorem value_replicate_false (k : Nat) : value (List.replicate k false) = 0 := by
  induction k with
  | zero => rfl
  | succ k ih => rw [List.replicate_succ, value_cons, ih]; rfl

/-- A signed number and its distance from zero: the number itself, or what its negation stores. -/
theorem natAbs_signed (hm : m < modulus (k + 1)) :
    (signed m (k + 1)).natAbs =
      if modulus k ≤ m then (modulus (k + 1) - m) % modulus (k + 1) else m := by
  have hdouble := modulus_succ k
  have hpos := modulus_pos k
  rcases signed_cases hm with ⟨hlow, hs⟩ | ⟨hhigh, hs⟩
  · rw [if_neg (by omega), hs]
    omega
  · rw [if_pos hhigh, hs, Nat.mod_eq_of_lt (by omega)]
    omega

theorem natAbs_signed_le (hm : m < modulus (k + 1)) : (signed m (k + 1)).natAbs ≤ modulus k := by
  have hdouble := modulus_succ k
  rcases signed_cases hm with ⟨hlow, hs⟩ | ⟨hhigh, hs⟩
  · rw [hs]
    omega
  · rw [hs]
    omega

theorem natAbs_signed_pos (hm : m < modulus (k + 1)) (hm0 : m ≠ 0) :
    0 < (signed m (k + 1)).natAbs := by
  rcases signed_cases hm with ⟨-, hs⟩ | ⟨-, hs⟩
  · omega
  · omega

/-- One step of long division: what is brought down, less the divisor if it goes in. -/
theorem long_division_step {r d unit rest : Nat} {bit : Bool} (hr : r < d) :
    (r * (2 * unit) + (rest + unit * bit.toNat)) / d =
      (decide (d ≤ bit.toNat + 2 * r)).toNat * unit +
        ((if d ≤ bit.toNat + 2 * r then bit.toNat + 2 * r - d else bit.toNat + 2 * r) * unit +
          rest) / d := by
  have hpos : 0 < d := by omega
  have hdown : r * (2 * unit) + (rest + unit * bit.toNat) = (bit.toNat + 2 * r) * unit + rest := by
    ring
  rw [hdown]
  by_cases hd : d ≤ bit.toNat + 2 * r
  · have hsplit : (bit.toNat + 2 * r) * unit + rest =
        (bit.toNat + 2 * r - d) * unit + rest + unit * d := by
      rw [Nat.sub_mul, Nat.mul_comm unit d]
      have hle := Nat.mul_le_mul_right unit hd
      omega
    rw [if_pos hd, decide_eq_true hd, hsplit, Nat.add_mul_div_right _ _ hpos, Bool.toNat_true]
    omega
  · rw [if_neg hd, decide_eq_false hd, Bool.toNat_false]
    omega

theorem signed_neg_iff (hm : m < modulus (k + 1)) : signed m (k + 1) < 0 ↔ modulus k ≤ m := by
  rcases signed_cases hm with ⟨hlow, hs⟩ | ⟨hhigh, hs⟩
  · omega
  · omega

/-- Truncated division is that of the magnitudes, negated if the signs differ. -/
theorem tdiv_eq (a b : Int) :
    Int.tdiv a b =
      if (decide (a < 0) ^^ decide (b < 0)) = true then -((a.natAbs / b.natAbs : Nat) : Int)
      else ((a.natAbs / b.natAbs : Nat) : Int) := by
  cases a with
  | ofNat a => cases b <;> simp [Int.tdiv, Int.not_lt_of_ge]
  | negSucc a => cases b <;> simp [Int.tdiv]

/-- A number of the width is stored as it is, and its negation as its distance from the modulus. -/
theorem residue_negated {q width : Nat} (hq : q < modulus width) (negated : Bool) :
    residue (if negated = true then -(q : Int) else q) width =
      if negated = true then (modulus width - q) % modulus width else q := by
  cases negated with
  | false => exact residue_of_nonneg hq
  | true =>
    refine (eq_residue (Nat.mod_lt _ (modulus_pos width)) ?_).symm
    have hcongr : ((modulus width - q : Nat) : Int) = -(q : Int) + modulus width := by omega
    simp only [if_pos]
    rw [Int.natCast_emod, Int.emod_emod_of_dvd _ (Int.dvd_refl _), hcongr, Int.add_emod_right]

/-- The bits of a signed quotient, from the quotient of the magnitudes and the signs. -/
theorem residue_tdiv (hm : m < modulus (k + 1)) (hn : n < modulus (k + 1)) {q : Nat}
    (hq : q = (signed m (k + 1)).natAbs / (signed n (k + 1)).natAbs) :
    residue (Int.tdiv (signed m (k + 1)) (signed n (k + 1))) (k + 1) =
      if (decide (modulus k ≤ m) ^^ decide (modulus k ≤ n)) = true then
        (modulus (k + 1) - q) % modulus (k + 1)
      else q := by
  have hdouble := modulus_succ k
  have hpos := modulus_pos k
  have hlt : q < modulus (k + 1) := by
    have hdiv := Nat.div_le_self (signed m (k + 1)).natAbs (signed n (k + 1)).natAbs
    have habs := natAbs_signed_le hm
    omega
  rw [tdiv_eq, ← hq, decide_eq_decide.mpr (signed_neg_iff hm), decide_eq_decide.mpr (signed_neg_iff hn)]
  exact residue_negated hlt _

end TwosComplement

namespace Word

variable {c d : Circuit} {v : Nat → Option Bool} {u w : Word} {k m n : Nat}

/-- Without its leading bit a word holds the number modulo half of its modulus. -/
theorem Holds.dropLast (hu : Holds c v u m) (hk : u.width = k + 1) :
    ∃ xs, Spells c v u.bits.dropLast xs ∧ xs.length = k ∧ value xs = m % modulus k := by
  obtain ⟨as, a, xs, hbits, hxs, -, hlen, hvalue⟩ := hu.leading hk
  refine ⟨xs, ?_, hlen, hvalue⟩
  rwa [hbits, List.dropLast_concat]

theorem makes_zero (v : Nat → Option Bool) (h : Buildable c) (width : Nat) :
    Makes v c (ofConstants (List.replicate width false)) fun r d => r.width = width ∧ Holds d v r 0 := by
  refine (makes_constants v h _).bind fun ws d adv hws => ?_
  refine .pure adv.built ⟨?_, _, hws, value_replicate_false width⟩
  exact hws.length_eq.trans List.length_replicate

/-- The magnitude of the signed reading. -/
theorem makes_abs (h : Buildable c) (hu : Holds c v u m) (hk : u.width = k + 1) :
    Makes v c (Word.abs u) fun r d =>
      r.width = u.width ∧ Holds d v r (signed m (k + 1)).natAbs := by
  have hm : m < modulus (k + 1) := hk ▸ hu.lt
  refine (makes_negate h hu).bind fun neg d adv hneg => ?_
  obtain ⟨hwidth, hneg⟩ := hneg
  refine (makes_msb adv.built (hu.after adv) hk).bind fun top e adv' htop => ?_
  have hchoice := makes_select adv'.built htop (hneg.after adv') (hu.after (adv.trans adv')) hwidth
  refine hchoice.imp fun r f _ hr => ⟨hr.1.trans hwidth, ?_⟩
  rw [natAbs_signed hm, ← hk]
  simpa using hr.2

/-- A step of division takes the divisor off if it goes in, and says so. -/
theorem makes_divisionStep (h : Buildable c) (hu : Holds c v u m) (hw : Holds c v w n)
    (hwidth : u.width = w.width) (hk : u.width = k + 1) :
    Makes v c (divisionStep u w) fun r d => r.1.width = u.width ∧
      Holds d v r.1 (if n ≤ m then m - n else m) ∧ Carries d v r.2 (decide (n ≤ m)) := by
  have hm := hu.lt
  refine (makes_lessOrEqualUnsigned h hw hu hwidth.symm (hwidth.symm.trans hk)).bind
    fun take d adv htake => ?_
  refine (makes_sub adv.built (hu.after adv) (hw.after adv) hwidth).bind fun reduced e adv' hr => ?_
  obtain ⟨hreduced, hr⟩ := hr
  have htake := htake.after adv'
  refine (makes_select adv'.built htake hr (hu.after (adv.trans adv')) hreduced).bind
    fun next f adv'' hnext => ?_
  obtain ⟨hnextWidth, hnext⟩ := hnext
  refine .pure adv''.built ⟨hnextWidth.trans hreduced, ?_, htake.after adv''⟩
  by_cases hle : n ≤ m
  · have hmod : (m + (modulus u.width - n)) % modulus u.width = m - n := by
      have hsum : m + (modulus u.width - n) = m - n + modulus u.width := by
        have hn := hw.lt
        rw [← hwidth] at hn
        omega
      rw [hsum, Nat.add_mod_right, Nat.mod_eq_of_lt (by omega)]
    simpa [hle, hmod] using hnext
  · simpa [hle] using hnext

/-- Long division of what is left of a dividend. The quotient grows below, by one bit for each bit
brought down; it is right if the divisor is greater than the remainder. -/
theorem makes_divideFrom {divisor remainder : Word} {quotient bits : List Nat} {r n : Nat}
    {qs xs : List Bool} (h : Buildable c) (hdivisor : Holds c v divisor n)
    (hn : n ≤ modulus k) (hr : Holds c v remainder r) (hwidth : remainder.width = divisor.width)
    (hk : divisor.width = k + 1) (hq : Spells c v quotient qs) (hx : Spells c v bits xs) :
    Makes v c (divideFrom divisor remainder quotient bits) fun y d =>
      y.width = quotient.length + bits.length ∧ ∃ q, Holds d v y q ∧
        (r < n → q = value qs * modulus xs.length +
          (r * modulus xs.length + value xs.reverse) / n) := by
  induction bits generalizing c remainder quotient r qs xs with
  | nil =>
    cases hx
    refine .pure h ⟨by simp [Word.width], value qs, ⟨qs, hq, rfl⟩, fun hlt => ?_⟩
    simp [Nat.div_eq_of_lt hlt]
  | cons bit rest ih =>
    obtain ⟨x, xs, hbit, hrest, rfl⟩ := List.forall₂_cons_left_iff.mp hx
    obtain ⟨ys, hys, hlen, hvalue⟩ := hr.dropLast (hwidth.trans hk)
    have hdown : Holds c v ⟨bit :: remainder.bits.dropLast⟩ (x.toNat + 2 * (r % modulus k)) :=
      ⟨x :: ys, .cons hbit hys, by rw [value_cons, hvalue]⟩
    have hdownWidth : Word.width ⟨bit :: remainder.bits.dropLast⟩ = divisor.width := by
      rw [hk, Word.width, List.length_cons, hys.length_eq, hlen]
    refine (makes_divisionStep h hdown hdivisor hdownWidth (hdownWidth.trans hk)).bind
      fun step d adv hstep => ?_
    obtain ⟨hnextWidth, hnext, htake⟩ := hstep
    refine (ih adv.built (hdivisor.after adv) hnext (hnextWidth.trans hdownWidth)
      (.cons htake (hq.after adv)) (Spells.after hrest adv)).imp fun y e _ hy => ?_
    obtain ⟨hyWidth, q, hyq, hvalue⟩ := hy
    refine ⟨by rw [hyWidth, List.length_cons, List.length_cons]; omega, q, hyq, fun hlt => ?_⟩
    have hr : r % modulus k = r := Nat.mod_eq_of_lt (by omega)
    rw [hr] at hvalue
    have hx := Bool.toNat_le x
    rw [hvalue (by split <;> omega), List.length_cons, modulus_succ, List.reverse_cons, value_concat,
      List.length_reverse, long_division_step hlt, value_cons]
    ring

/-- The signed quotient, truncated toward zero; some word for the divisor zero. -/
theorem makes_div (h : Buildable c) (hu : Holds c v u m) (hw : Holds c v w n)
    (hwidth : u.width = w.width) (hk : u.width = k + 1) :
    Makes v c (Word.div u w) fun r d => r.width = u.width ∧ ∃ q, Holds d v r q ∧
      (n ≠ 0 → q = residue (Int.tdiv (signed m (k + 1)) (signed n (k + 1))) (k + 1)) := by
  have hkw := hwidth.symm.trans hk
  have hm : m < modulus (k + 1) := hk ▸ hu.lt
  have hn : n < modulus (k + 1) := hkw ▸ hw.lt
  refine (makes_requireSameWidth h hwidth).bind fun _ d₀ adv₀ _ => ?_
  refine (makes_abs adv₀.built (hu.after adv₀) hk).bind fun dividend d₁ adv₁ ha => ?_
  obtain ⟨haWidth, ⟨xs, hxs, hxsValue⟩⟩ := ha
  have adv := adv₀.trans adv₁
  refine (makes_abs adv₁.built (hw.after adv) hkw).bind fun divisor d₂ adv₂ hb => ?_
  obtain ⟨hbWidth, hb⟩ := hb
  refine (makes_zero v adv₂.built u.width).bind fun zero d₃ adv₃ hzero => ?_
  obtain ⟨hzeroWidth, hzero⟩ := hzero
  have hbits := List.rel_reverse (hxs.after (adv₂.trans adv₃))
  have hdivisorWidth : divisor.width = k + 1 := hbWidth.trans hkw
  refine (makes_divideFrom adv₃.built (hb.after adv₃) (natAbs_signed_le hn) hzero
    (hzeroWidth.trans (hk.trans hdivisorWidth.symm)) hdivisorWidth .nil hbits).bind
    fun quotient d₄ adv₄ hquotient => ?_
  obtain ⟨hqWidth, q, hq, hqValue⟩ := hquotient
  have hqWidth : quotient.width = u.width := by
    rw [hqWidth, List.length_nil, List.length_reverse, Nat.zero_add, ← haWidth, Word.width]
  have adv := ((adv.trans adv₂).trans adv₃).trans adv₄
  refine (makes_negate adv₄.built hq).bind fun negated d₅ adv₅ hneg => ?_
  obtain ⟨hnegWidth, hneg⟩ := hneg
  have adv := adv.trans adv₅
  refine (makes_msb adv₅.built (hu.after adv) hk).bind fun topA d₆ adv₆ htopA => ?_
  refine (makes_msb adv₆.built (hw.after (adv.trans adv₆)) hkw).bind fun topB d₇ adv₇ htopB => ?_
  refine (Build.makes_xor adv₇.built (htopA.after adv₇) htopB).bind fun differ d₈ adv₈ hdiffer => ?_
  have hneg := hneg.after ((adv₆.trans adv₇).trans adv₈)
  have hq := hq.after (((adv₅.trans adv₆).trans adv₇).trans adv₈)
  refine (makes_select adv₈.built hdiffer hneg hq hnegWidth).imp fun r d₉ _ hr => ?_
  obtain ⟨hrWidth, hr⟩ := hr
  refine ⟨hrWidth.trans (hnegWidth.trans hqWidth), _, hr, fun hn0 => ?_⟩
  have hquotient := hqValue (natAbs_signed_pos hn hn0)
  simp only [value_nil, List.reverse_reverse, hxsValue, Nat.zero_mul, Nat.zero_add] at hquotient
  rw [residue_tdiv hm hn hquotient, hqWidth, hk]

/-! ### How dividers are wired -/

variable {α : Type} {a b : Word}

theorem consults_abs {w : Nat} (hw : w ∈ a.bits) : Build.Consults w (Word.abs a) :=
  .first (consults_negate hw) (assembled_negate a) fun _ =>
    .bind (assembled_msb a) fun _ => assembled_select ..

/-- The remainder and the quotient bit of a step are both part of its result. -/
theorem gadget_divisionStep (a b : Word) :
    Gadget a b (divisionStep a b) fun r => r.2 :: r.1.bits where
  assembled := assembled_divisionStep a b
  settles := .bind (assembled_lessOrEqualUnsigned b a) (gadget_lessUnsigned b a).orEqual.settles
    fun take => .after (assembled_sub a b) fun reduced =>
    .bind (assembled_select ..) (settles_select take reduced a) fun next => .pure (by simp)
  consults w hw := by
    have hw : w ∈ b.bits ++ a.bits := List.mem_append.mpr (List.mem_append.mp hw).symm
    exact .first ((gadget_lessUnsigned b a).orEqual.consults w hw) (assembled_lessOrEqualUnsigned b a)
      fun take => .bind (assembled_sub a b) fun reduced => .bind (assembled_select ..) fun next => .pure _

theorem gadget_div (a b : Word) : Gadget a b (Word.div a b) bits where
  assembled := assembled_div a b
  settles := .after (assembled_requireSameWidth a b) fun _ => .after (assembled_abs a) fun dividend =>
    .after (assembled_abs b) fun divisor => .after (assembled_ofConstants _) fun remainder =>
    .after (assembled_divideFrom ..) fun quotient => .after (assembled_negate quotient) fun negated =>
    .after (assembled_msb a) fun _ => .after (assembled_msb b) fun _ => .after (.gate ..) fun _ =>
    settles_select _ negated quotient
  consults w hw := by
    refine .after (assembled_requireSameWidth a b) fun _ => ?_
    rcases List.mem_append.mp hw with hw | hw
    · exact .first (consults_abs hw) (assembled_abs a) fun dividend =>
        .bind (assembled_abs b) fun divisor => assembled_quotient a b dividend divisor
    · exact .after (assembled_abs a) fun dividend =>
        .first (consults_abs hw) (assembled_abs b) fun divisor => assembled_quotient a b dividend divisor

/-! ### What dividers compute -/

/-- A step of division compares unsigned numbers of the full range: it takes the divisor off exactly if
that is no greater than the remainder, as zero never is, and otherwise it leaves the remainder alone. -/
theorem takes_off_divisor (hc : Reachable c) (ho : c.origin ≠ .netlist) (hpos : 1 ≤ a.width)
    (hwidth : a.width = b.width) (ha : ∀ w ∈ a.bits, Usable c w) (hb : ∀ w ∈ b.bits, Usable c w) :
    Computes c a b (divisionStep a b) decodeUnsigned fun m n r e =>
      r.1.width = a.width ∧ r.1.decodeUnsigned e = .ok (if n ≤ m then m - n else m) ∧
        e.value r.2 = .ok (some (decide (n ≤ m))) := by
  have h : Buildable c := ⟨hc.complemented, ho⟩
  obtain ⟨k, hk⟩ := Nat.exists_eq_add_of_le' hpos
  have hcomputes := (gadget_divisionStep a b).computes h ha hb
    (P := fun m n r zs => r.1.width = a.width ∧
      ∃ ys, zs = decide (n ≤ m) :: ys ∧ value ys = if n ≤ m then m - n else m)
    fun v m n hm hn => by
      refine (makes_divisionStep h hm hn hwidth hk).imp fun r d _ hr => ?_
      obtain ⟨hwide, ⟨ys, hys, hvalue⟩, htake⟩ := hr
      exact ⟨_, .cons htake hys, hwide, ys, rfl, hvalue⟩
  refine hcomputes.imp fun m n r e hr => ?_
  obtain ⟨zs, hzs, hwide, ys, rfl, hvalue⟩ := hr
  obtain ⟨htake, hys⟩ := List.forall₂_cons.mp hzs
  exact ⟨hwide, decodeUnsigned_ok_iff.mpr ⟨ys, hys, hvalue⟩,
    value_ok_iff.mpr ⟨WireStore.contains_of_seen? htake, htake.symm⟩⟩

/-- Two is taken off three, which is spelled by one input alone; as a signed number it is minus one. -/
theorem takes_off_divisor_shared :
    ∃ c r d, Supplied c ∧ divisionStep ⟨[0, 0]⟩ ⟨[1, 0]⟩ c = .ok (r, d) ∧ d.execute.failure = none ∧
      decodeUnsigned ⟨[0, 0]⟩ d.execute.state = .ok 3 ∧
      decodeUnsigned ⟨[1, 0]⟩ d.execute.state = .ok 2 ∧
      r.1.decodeUnsigned d.execute.state = .ok 1 ∧ d.execute.state.value r.2 = .ok (some true) := by
  obtain ⟨c, hs, ho, husable, hrun⟩ :
      ∃ c, Supplied c ∧ c.origin = .synthesis ∧ (∀ w ∈ [1, 0], Usable c w) ∧
        (divisionStep ⟨[0, 0]⟩ ⟨[1, 0]⟩ c).map (fun p => (p.2.execute.failure,
          decodeUnsigned ⟨[0, 0]⟩ p.2.execute.state, decodeUnsigned ⟨[1, 0]⟩ p.2.execute.state)) =
            .ok (none, .ok 3, .ok 2) := by
    have hinput := Supplied.empty.supplies (supplies_build .issueInput rfl)
    have hassigned := hinput.supplies
      (supplies_of_assigns (.assign 0 true) nofun rfl fun w hw _ => by cases hw; rfl)
    have hconst := hassigned.supplies (supplies_build (.constant false) rfl)
    refine ⟨_, hconst, rfl, List.forall_mem_cons.mpr ⟨.inr ⟨false, rfl, rfl, nofun, rfl⟩, ?_⟩,
      by decide +kernel⟩
    exact List.forall_mem_singleton.mpr (.inl (.inl rfl))
  have hbits : ∀ w ∈ [0, 0], w ∈ [1, 0] := by decide
  obtain ⟨r, d, hstep, hlater⟩ := takes_off_divisor (a := ⟨[0, 0]⟩) (b := ⟨[1, 0]⟩) hs.reachable
    (by simp [ho]) (by decide) rfl (fun w hw => husable w (hbits w hw)) husable
  rw [hstep] at hrun
  obtain ⟨hok, ha, hb⟩ : _ ∧ _ ∧ _ := by simpa [Except.map] using hrun
  obtain ⟨-, hlater⟩ := hlater _ ⟨d, .refl, hok, rfl⟩
  obtain ⟨-, hnext, htake⟩ := hlater 3 2 ha hb
  exact ⟨c, r, d, hs, hstep, hok, ha, hb, hnext, htake⟩

/-- The signed quotient is that of the numbers that the words are read as, truncated toward zero, modulo
two to the width; that by zero is some number. -/
theorem computes_div (h : Buildable c) (hpos : 1 ≤ a.width) (hwidth : a.width = b.width)
    (ha : ∀ w ∈ a.bits, Usable c w) (hb : ∀ w ∈ b.bits, Usable c w) :
    Computes c a b (Word.div a b) decodeSigned fun x y r e =>
      r.width = a.width ∧ ∃ z, r.decodeSigned e = .ok z ∧
        (y ≠ 0 → z = Int.bmod (Int.tdiv x y) (modulus a.width)) := by
  obtain ⟨k, hk⟩ := Nat.exists_eq_add_of_le' hpos
  have hcomputes := (gadget_div a b).computes h ha hb
    (P := fun m n r zs => r.width = a.width ∧
      (n ≠ 0 → value zs = residue (Int.tdiv (signed m (k + 1)) (signed n (k + 1))) (k + 1)))
    fun v m n hm hn => by
      refine (makes_div h hm hn hwidth hk).imp fun r d _ hr => ?_
      obtain ⟨hr, _, ⟨zs, hzs, rfl⟩, hvalue⟩ := hr
      exact ⟨zs, hzs, hr, hvalue⟩
  refine hcomputes.signed fun m n r e hm hn hr => ?_
  obtain ⟨zs, hzs, hr, hvalue⟩ := hr
  refine ⟨hr, _, decodeSigned_ok_iff.mpr ⟨_, decodeUnsigned_ok_iff.mpr ⟨zs, hzs, rfl⟩, rfl⟩, ?_⟩
  rw [← hwidth, hk] at hn ⊢
  intro hy
  have hn0 : n ≠ 0 := by
    rintro rfl
    exact hy (by simp [signed])
  rw [hvalue hn0, hr, hk, signed_residue]

/-- Words are divided as the numbers that they are read as, truncated toward zero, modulo two to the
width. Nothing fails for the divisor zero, nor otherwise: an execution of the circuit with the divider
succeeds if that of the circuit without it does and leaves values on the wires of both words, and on the
inputs of which these are complements. -/
theorem divides_toward_zero (hc : Reachable c) (ho : c.origin ≠ .netlist) (hpos : 1 ≤ a.width)
    (hwidth : a.width = b.width) (ha : ∀ w ∈ a.bits, Usable c w) (hb : ∀ w ∈ b.bits, Usable c w) :
    Computes c a b (Word.div a b) decodeSigned (fun x y r e =>
      r.width = a.width ∧ ∃ z, r.decodeSigned e = .ok z ∧
        (y ≠ 0 → z = Int.bmod (Int.tdiv x y) (modulus a.width))) ∧
    ∀ r d, Word.div a b c = .ok (r, d) →
      ∀ values : List (Nat × Bool), (∀ value ∈ values, c.isInput value.1 = true) →
        ∃ c₁ d₁, c.assignAll values = ⟨c₁, none⟩ ∧ d.assignAll values = ⟨d₁, none⟩ ∧
          (c₁.execute.failure = none →
            (∀ w ∈ a.bits ++ b.bits, c₁.execute.state.wires.seen? w ≠ none) →
            (∀ p ∈ c.inputComplements, p.2 ∈ a.bits ++ b.bits →
              c₁.execute.state.wires.seen? p.1 ≠ none) →
            d₁.execute.failure = none) := by
  have h : Buildable c := ⟨hc.complemented, ho⟩
  refine ⟨computes_div h hpos hwidth ha hb, fun r d hok values hvalues => ?_⟩
  have hstep := extends_build (.div a b) (Build.map_ok_iff.mpr ⟨r, hok, rfl⟩)
  obtain ⟨hd, hext⟩ := hstep.extension h.toComplemented
  have hreg : ∀ value ∈ values, c.wires.contains value.1 = true := fun value hvalue =>
    h.input_registered _ (hvalues value hvalue)
  have hvalues' : ∀ value ∈ values, d.isInput value.1 = true := fun value hvalue =>
    (hext.isInput _ (hreg value hvalue)).trans (hvalues value hvalue)
  obtain ⟨c₁, d₁, hc₁, hd₁, hext₁, -, -, hkept⟩ :=
    hext.assignAll h.toWellFormed hd.toWellFormed hreg
  refine ⟨c₁, d₁, hc₁, hd₁, executes_with ha hb (fun v m n hm hn => ?_)
    (.assignAll h.toWellFormed hvalues hc₁) (.assignAll hd.toWellFormed hvalues' hd₁)
    fun w hi => hext₁.raw? w (hkept w (h.input_registered w hi))⟩
  obtain ⟨k, hk⟩ := Nat.exists_eq_add_of_le' hpos
  obtain ⟨r', d', hok', adv, -⟩ := makes_div h hm hn hwidth hk
  cases hok.symm.trans hok'
  exact adv

/-- The least number of two bits, spelled by an input and a constant, is divided by minus one, spelled by
the input alone. -/
theorem divides_toward_zero_least :
    ∃ c r d, Supplied c ∧ Word.div ⟨[1, 0]⟩ ⟨[0, 0]⟩ c = .ok (r, d) ∧ d.execute.failure = none ∧
      decodeSigned ⟨[1, 0]⟩ d.execute.state = .ok (-2) ∧
      decodeSigned ⟨[0, 0]⟩ d.execute.state = .ok (-1) ∧
      r.decodeSigned d.execute.state = .ok (-2) := by
  obtain ⟨c, hs, ho, husable, hok, hseen, hpairs, hrun⟩ :
      ∃ c, Supplied c ∧ c.origin = .synthesis ∧ (∀ w ∈ [0, 1], Usable c w) ∧
        c.execute.failure = none ∧ (∀ w ∈ [0, 1], c.execute.state.wires.seen? w ≠ none) ∧
        c.inputComplements = [] ∧
        (Word.div ⟨[1, 0]⟩ ⟨[0, 0]⟩ c).map (fun p => (decodeSigned ⟨[1, 0]⟩ p.2.execute.state,
          decodeSigned ⟨[0, 0]⟩ p.2.execute.state)) = .ok (.ok (-2), .ok (-1)) := by
    have hinput := Supplied.empty.supplies (supplies_build .issueInput rfl)
    have hassigned := hinput.supplies
      (supplies_of_assigns (.assign 0 true) nofun rfl fun w hw _ => by cases hw; rfl)
    have hconst := hassigned.supplies (supplies_build (.constant false) rfl)
    refine ⟨_, hconst, rfl, List.forall_mem_cons.mpr ⟨.inl (.inl rfl), ?_⟩, rfl, by decide +kernel, rfl,
      by decide +kernel⟩
    exact List.forall_mem_singleton.mpr (.inr ⟨false, rfl, rfl, nofun, rfl⟩)
  have hbits : ∀ w ∈ [1, 0] ++ [0, 0], w ∈ [0, 1] := by decide
  obtain ⟨⟨r, d, hdiv, hquotient⟩, hexecutes⟩ := divides_toward_zero (a := ⟨[1, 0]⟩) (b := ⟨[0, 0]⟩)
    hs.reachable (by simp [ho]) (by decide) rfl
    (fun w hw => husable w (hbits w (List.mem_append_left _ hw)))
    fun w hw => husable w (hbits w (List.mem_append_right _ hw))
  obtain ⟨c₁, d₁, hc₁, hd₁, hexecutes⟩ := hexecutes r d hdiv [] nofun
  cases hc₁
  cases hd₁
  have hok := hexecutes hok (fun w hw => hseen w (hbits w hw)) (by simp [hpairs])
  rw [hdiv] at hrun
  obtain ⟨ha, hb⟩ : _ ∧ _ := by simpa [Except.map] using hrun
  obtain ⟨-, hquotient⟩ := hquotient _ ⟨d, .refl, hok, rfl⟩
  obtain ⟨-, z, hz, hvalue⟩ := hquotient (-2) (-1) ha hb
  obtain rfl : z = -2 := hvalue (by decide)
  exact ⟨c, r, d, hs, hdiv, hok, ha, hb, hz⟩

/-- The complement of an input is given a value, but the input is not. Executing succeeds, and both words
have values; with the divider it fails, since the divider reads the input. -/
theorem div_fails_beside_unknown_input :
    ∃ c r d, Reachable c ∧ c.origin = .synthesis ∧ (∀ w ∈ [1, 2], Usable c w) ∧
      Word.div ⟨[1]⟩ ⟨[2]⟩ c = .ok (r, d) ∧ c.execute.failure = none ∧
      decodeSigned ⟨[1]⟩ c.execute.state = .ok (-1) ∧ decodeSigned ⟨[2]⟩ c.execute.state = .ok 0 ∧
      d.execute.failure = some (.unassignedInput 5 0) := by
  have hinput := Reachable.empty.operated (.build .issueInput) rfl
  have hinvert := hinput.operated (.build (.invert 0)) rfl
  have hassigned := hinvert.operated (.assign 1 true) rfl
  have hconst := hassigned.operated (.build (.constant false)) rfl
  obtain ⟨c, hc, ho, husable, hok, ha, hb, hrun⟩ :
      ∃ c, Reachable c ∧ c.origin = .synthesis ∧ (∀ w ∈ [1, 2], Usable c w) ∧
        c.execute.failure = none ∧ decodeSigned ⟨[1]⟩ c.execute.state = .ok (-1) ∧
        decodeSigned ⟨[2]⟩ c.execute.state = .ok 0 ∧
        (Word.div ⟨[1]⟩ ⟨[2]⟩ c).map (fun p => p.2.execute.failure) =
          .ok (some (.unassignedInput 5 0)) := by
    refine ⟨_, hconst, rfl, List.forall_mem_cons.mpr ⟨.inl (.inr (.inr ⟨(0, 1), ?_, rfl⟩)), ?_⟩,
      by decide +kernel, by decide +kernel, by decide +kernel, by decide +kernel⟩
    · exact List.mem_cons_self ..
    · exact List.forall_mem_singleton.mpr (.inr ⟨false, rfl, rfl, by decide +kernel, rfl⟩)
  obtain ⟨⟨r, d⟩, hdiv, hfailure⟩ := map_ok_iff.mp hrun
  exact ⟨c, r, d, hc, ho, husable, hdiv, hok, ha, hb, hfailure⟩

end Word

end GateNet
