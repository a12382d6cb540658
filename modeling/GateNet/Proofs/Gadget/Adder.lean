import GateNet.Proofs.Gadget.Words

/-!
What adders compute. A stage turns three bits into their sum and carry, so by induction on the pairs of
bits a ripple of stages adds modulo two to the width, the carry that comes in included; negating and
subtracting are additions.
-/

namespace GateNet

open Circuit hiding value
open TwosComplement

variable {c d : Circuit} {v : Nat → Option Bool} {a b k : Nat} {x y z : Bool}

/-! ### Gadgets on bits -/

namespace Build

theorem makes_xor (h : Buildable c) (ha : Carries c v a x) (hb : Carries c v b y) :
    Makes v c (xor a b) fun w d => Carries d v w (x ^^ y) := by
  rw [← GateFunction.eval_xor]
  exact makes_gate h (by decide) ha hb

theorem makes_and (h : Buildable c) (ha : Carries c v a x) (hb : Carries c v b y) :
    Makes v c (and a b) fun w d => Carries d v w (x && y) := by
  rw [← GateFunction.eval_and]
  exact makes_gate h (by decide) ha hb

theorem makes_or (h : Buildable c) (ha : Carries c v a x) (hb : Carries c v b y) :
    Makes v c (or a b) fun w d => Carries d v w (x || y) := by
  rw [← GateFunction.eval_or]
  exact makes_gate h (by decide) ha hb

/-- A stage adds three bits. -/
theorem makes_fullAdder (h : Buildable c) (ha : Carries c v a x) (hb : Carries c v b y)
    (hk : Carries c v k z) :
    Makes v c (fullAdder a b k) fun r d =>
      Carries d v r.1 (x ^^ y ^^ z) ∧ Carries d v r.2 (x && y || (x ^^ y) && z) := by
  refine (makes_xor h ha hb).bind fun half d₁ adv₁ hhalf => ?_
  have hk := hk.after adv₁
  refine (makes_xor adv₁.built hhalf hk).bind fun sum d₂ adv₂ hsum => ?_
  have hk := hk.after adv₂
  have hhalf := hhalf.after adv₂
  have adv := adv₁.trans adv₂
  refine (makes_and adv₂.built (ha.after adv) (hb.after adv)).bind fun both d₃ adv₃ hboth => ?_
  refine (makes_and adv₃.built (hhalf.after adv₃) (hk.after adv₃)).bind
    fun passed d₄ adv₄ hpassed => ?_
  refine (makes_or adv₄.built (hboth.after adv₄) hpassed).bind fun carryOut d₅ adv₅ hcarry => ?_
  have hsum := hsum.after ((adv₃.trans adv₄).trans adv₅)
  rw [Bool.xor_assoc] at hsum
  exact .pure adv₅.built ⟨by simpa using hsum, hcarry⟩

/-- The choice between two wires carries the bit of the one that is chosen. -/
theorem makes_select (h : Buildable c) {sel t f : Nat} {s : Bool} (hs : Carries c v sel s)
    (ht : Carries c v t x) (hf : Carries c v f y) :
    Makes v c (select sel t f) fun w d => Carries d v w (if s then x else y) := by
  refine (makes_invert h hs).bind fun notSel d₁ adv₁ hnot => ?_
  refine (makes_and adv₁.built (ht.after adv₁) (hs.after adv₁)).bind fun whenTrue d₂ adv₂ ht' => ?_
  refine (makes_and adv₂.built (hf.after (adv₁.trans adv₂)) (hnot.after adv₂)).bind
    fun whenFalse d₃ adv₃ hf' => ?_
  refine (makes_or adv₃.built (ht'.after adv₃) hf').imp fun w d _ hw => ?_
  cases s with
  | true => simpa using hw
  | false => simpa using hw

theorem makes_bitEqual (h : Buildable c) (ha : Carries c v a x) (hb : Carries c v b y) :
    Makes v c (bitEqual a b) fun w d => Carries d v w (x == y) := by
  refine (makes_xor h ha hb).bind fun differ d₁ adv₁ hdiffer => ?_
  refine (makes_invert adv₁.built hdiffer).imp fun w d _ hw => ?_
  cases x with
  | true => simpa using hw
  | false => simpa using hw

end Build

/-! ### Words -/

namespace Word

variable {xs ys : List Bool} {as bs : List Nat}

theorem makes_constants (v : Nat → Option Bool) (h : Buildable c) (xs : List Bool) :
    Makes v c (xs.mapM Build.constant) fun ws d => Spells d v ws xs :=
  .mapM (P := fun _ b x => b = x) h (fun _ => id) (fun adv hw => Carries.after hw adv)
    (fun hd he => he ▸ makes_constant v hd _) (List.forall₂_same.mpr fun _ _ => rfl)

theorem makes_inverts (h : Buildable c) (ha : Spells c v as xs) :
    Makes v c (as.mapM Build.invert) fun ws d => Spells d v ws (xs.map (!·)) := by
  refine (Makes.mapM (P := fun d => Carries d v) (R := fun d w x => Carries d v w !x) h
    (fun adv hw => hw.after adv) (fun adv hw => hw.after adv) (fun hd => makes_invert hd) ha).imp
    fun ws d _ hws => ?_
  exact List.forall₂_map_right_iff.mpr hws

/-! ### Sums -/

theorem fullAdder_toNat (x y z : Bool) :
    (x ^^ y ^^ z).toNat + 2 * (x && y || (x ^^ y) && z).toNat = x.toNat + y.toNat + z.toNat := by
  cases x <;> cases y <;> cases z <;> rfl

/-- A bit in front of a sum modulo two to the width of the rest. -/
theorem mod_modulus_succ (s : Bool) (t width : Nat) :
    s.toNat + 2 * (t % modulus width) = (s.toNat + 2 * t) % modulus (width + 1) := by
  have hs := Bool.toNat_le s
  have hlow : (s.toNat + 2 * t) % 2 = s.toNat := by omega
  have hhigh : (s.toNat + 2 * t) / 2 = t := by omega
  rw [modulus_succ, Nat.mod_mul, hlow, hhigh]

/-- A ripple adds the numbers and the carry that comes in. -/
theorem makes_ripple (h : Buildable c) (ha : Spells c v as xs) (hb : Spells c v bs ys)
    (hlen : as.length = bs.length) (hk : Carries c v k z) :
    Makes v c (Word.ripple k (as.zip bs)) fun ws d => ∃ zs, Spells d v ws zs ∧
      ws.length = as.length ∧ value zs = (value xs + value ys + z.toNat) % modulus as.length := by
  induction as generalizing bs xs ys c k z with
  | nil =>
    cases ha
    cases List.length_eq_zero_iff.mp hlen.symm
    cases hb
    exact .pure h ⟨[], .nil, rfl, by simp [Nat.mod_one]⟩
  | cons a as ih =>
    obtain ⟨x, xs, hx, has, rfl⟩ := List.forall₂_cons_left_iff.mp ha
    obtain ⟨b, bs, rfl⟩ := List.exists_cons_of_length_eq_add_one hlen.symm
    obtain ⟨y, ys, hy, hbs, rfl⟩ := List.forall₂_cons_left_iff.mp hb
    refine (Build.makes_fullAdder h hx hy hk).bind fun r d adv hr => ?_
    obtain ⟨hsum, hcarry⟩ := hr
    refine (ih adv.built (Spells.after has adv) (Spells.after hbs adv) (by simpa using hlen)
      hcarry).bind fun sums e adv' hsums => ?_
    obtain ⟨zs, hzs, hwidth, hvalue⟩ := hsums
    refine .pure adv'.built ⟨_, .cons (hsum.after adv') hzs, by simp [hwidth], ?_⟩
    have hstage := fullAdder_toNat x y z
    rw [value_cons, value_cons, value_cons, hvalue, List.length_cons, mod_modulus_succ]
    congr 1
    omega

variable {u w : Word} {m n : Nat}

theorem makes_requireSameWidth (h : Buildable c) (hwidth : u.width = w.width) :
    Makes v c (requireSameWidth u w) fun _ _ => True :=
  ⟨(), c, if_pos hwidth, .refl h, trivial⟩

/-- The sum, modulo two to the width. -/
theorem makes_add (h : Buildable c) (hu : Holds c v u m) (hw : Holds c v w n)
    (hwidth : u.width = w.width) :
    Makes v c (Word.add u w) fun r d => r.width = u.width ∧ Holds d v r ((m + n) % modulus u.width) := by
  obtain ⟨xs, hxs, rfl⟩ := hu
  obtain ⟨ys, hys, rfl⟩ := hw
  refine (makes_requireSameWidth h hwidth).bind fun _ d adv _ => ?_
  refine (makes_constant v adv.built false).bind fun carry e adv' hcarry => ?_
  have hadv := adv.trans adv'
  refine (makes_ripple adv'.built (hxs.after hadv) (hys.after hadv) hwidth hcarry).bind
    fun sums f adv'' hsums => ?_
  obtain ⟨zs, hzs, hlen, hvalue⟩ := hsums
  exact .pure adv''.built ⟨hlen, zs, hzs, hvalue⟩

theorem makes_one (v : Nat → Option Bool) (h : Buildable c) (width : Nat) :
    Makes v c (Word.one width) fun r d => r.width = width ∧ Holds d v r (1 % modulus width) := by
  refine (makes_constants v h _).bind fun ws d adv hws => ?_
  refine .pure adv.built ⟨?_, _, hws, value_bitsOf width 1⟩
  exact hws.length_eq.trans (length_bitsOf width 1)

/-- The negation, modulo two to the width. -/
theorem makes_negate (h : Buildable c) (hu : Holds c v u m) :
    Makes v c (Word.negate u) fun r d =>
      r.width = u.width ∧ Holds d v r ((modulus u.width - m) % modulus u.width) := by
  have hlt := hu.lt
  obtain ⟨xs, hxs, rfl⟩ := hu
  have hlen : u.width = xs.length := hxs.length_eq
  refine (makes_inverts h hxs).bind fun ws d adv hws => ?_
  refine (makes_one v adv.built u.width).bind fun one e adv' hone => ?_
  obtain ⟨hwidth, hone⟩ := hone
  have hws' : ws.length = u.width := by
    rw [hws.length_eq, List.length_map, hlen]
  refine (makes_add adv'.built ⟨_, hws.after adv', rfl⟩ hone (hws'.trans hwidth.symm)).imp
    fun r f _ hr => ?_
  obtain ⟨hr, hsum⟩ := hr
  have hnot := value_map_not xs
  have hwide : Word.width ⟨ws⟩ = u.width := hws'
  rw [hwide, Nat.add_mod_mod] at hsum
  refine ⟨hr.trans hwide, ?_⟩
  have hdistance : modulus u.width - value xs = value (xs.map (!·)) + 1 := by
    rw [hlen]
    omega
  rwa [hdistance]

/-- The difference, modulo two to the width. -/
theorem makes_sub (h : Buildable c) (hu : Holds c v u m) (hw : Holds c v w n)
    (hwidth : u.width = w.width) :
    Makes v c (Word.sub u w) fun r d =>
      r.width = u.width ∧ Holds d v r ((m + (modulus u.width - n)) % modulus u.width) := by
  refine (makes_requireSameWidth h hwidth).bind fun _ d adv _ => ?_
  refine (makes_negate adv.built (hw.after adv)).bind fun neg e adv' hneg => ?_
  obtain ⟨hnegWidth, hneg⟩ := hneg
  have hu := hu.after (adv.trans adv')
  refine (makes_add adv'.built hu hneg (hwidth.trans hnegWidth.symm)).imp fun r f _ hr => ?_
  obtain ⟨hr, hsum⟩ := hr
  rw [← hwidth, Nat.add_mod_mod] at hsum
  exact ⟨hr, hsum⟩

/-- The choice between two words holds the number of the one that is chosen. -/
theorem makes_select (h : Buildable c) {sel : Nat} {s : Bool} (hs : Carries c v sel s)
    (hu : Holds c v u m) (hw : Holds c v w n) (hwidth : u.width = w.width) :
    Makes v c (select sel u w) fun r d => r.width = u.width ∧ Holds d v r (if s then m else n) := by
  obtain ⟨xs, hxs, rfl⟩ := hu
  obtain ⟨ys, hys, rfl⟩ := hw
  have hlen : xs.length = ys.length := hxs.length_eq.symm.trans (hwidth.trans hys.length_eq)
  refine (makes_requireSameWidth h hwidth).bind fun _ d adv _ => ?_
  have hpairs := (hxs.after adv).zip (hys.after adv)
  refine (Makes.mapM (P := fun d p q => Carries d v sel s ∧ CarriesPair d v p q)
    (R := fun d r (q : Bool × Bool) => Carries d v r (if s then q.1 else q.2)) adv.built
    (fun adv h => ⟨h.1.after adv, h.2.after adv⟩) (fun adv h => h.after adv)
    (fun hd h => Build.makes_select hd h.1 h.2.1 h.2.2)
    (hpairs.imp fun _ _ hp => ⟨hs.after adv, hp⟩)).bind fun ws e adv' hws => ?_
  have hchosen : (xs.zip ys).map (fun q => if s then q.1 else q.2) = if s then xs else ys := by
    cases s with
    | true => exact List.map_fst_zip (Nat.le_of_eq hlen)
    | false => exact List.map_snd_zip (Nat.le_of_eq hlen.symm)
  have hbits : Spells e v ws (if s then xs else ys) :=
    hchosen ▸ List.forall₂_map_right_iff.mpr hws
  refine .pure adv'.built ⟨?_, _, hbits, by cases s <;> rfl⟩
  have hwide : u.width = xs.length := hxs.length_eq
  have hws := hbits.length_eq
  cases s with
  | true => exact hws.trans hwide.symm
  | false => exact hws.trans (hlen.symm.trans hwide.symm)

/-! ### How adders are wired -/

variable {given : List Nat} {α : Type}

/-- The sum of a stage is settled; its carry is no part of a result. -/
theorem settles_fullAdder (a b carry : Nat) :
    Build.Settles given (Build.fullAdder a b carry) fun r => [r.1] := by
  refine .after (.gate ..) fun half => ?_
  refine .bind (.gate ..) (Build.settles_addGate ..) fun sum => ?_
  exact .after (.gate ..) fun both => .after (.gate ..) fun passed => .after (.gate ..) fun carryOut =>
    .pure (by simp)

theorem settles_ripple (carry : Nat) (pairs : List (Nat × Nat)) :
    Build.Settles given (ripple carry pairs) id := by
  induction pairs generalizing carry given with
  | nil => exact .pure (List.nil_subset _)
  | cons pair rest ih =>
    refine .bind (Build.assembled_fullAdder ..) (settles_fullAdder ..) fun r => ?_
    exact .bind (assembled_ripple ..) (ih r.2) fun sums => .pure (by simp)

theorem settles_add (a b : Word) : Build.Settles given (add a b) bits := by
  refine .after (assembled_requireSameWidth a b) fun _ => .after (.wire _) fun carry => ?_
  exact .bind (assembled_ripple ..) (settles_ripple ..) fun sums => .pure (by simp)

theorem settles_select (sel : Nat) (a b : Word) : Build.Settles given (select sel a b) bits := by
  refine .after (assembled_requireSameWidth a b) fun _ => ?_
  refine .bind (Build.assembled_mapM (fun _ => Build.assembled_select ..) _) (.mapM ?_ ?_ _)
    fun chosen => .pure (by simp)
  · exact fun _ => Build.assembled_select ..
  · exact fun _ _ => .after (.invert sel) fun _ => .after (.gate ..) fun _ =>
      .after (.gate ..) fun _ => Build.settles_addGate ..

theorem consults_fullAdder {w a b : Nat} (hw : w = a ∨ w = b) (carry : Nat) :
    Build.Consults w (Build.fullAdder a b carry) :=
  .first (.gate hw) (.gate ..) fun _ => .bind (.gate ..) fun _ => .bind (.gate ..) fun _ =>
    .bind (.gate ..) fun _ => .bind (.gate ..) fun _ => .pure _

theorem consults_ripple {w : Nat} {pairs : List (Nat × Nat)} {p : Nat × Nat} (hp : p ∈ pairs)
    (hw : w = p.1 ∨ w = p.2) (carry : Nat) : Build.Consults w (ripple carry pairs) := by
  induction pairs generalizing carry with
  | nil => cases hp
  | cons pair rest ih =>
    rcases List.mem_cons.mp hp with rfl | hp
    · exact .first (consults_fullAdder hw carry) (Build.assembled_fullAdder ..) fun r =>
        .bind (assembled_ripple ..) fun _ => .pure _
    · exact .after (Build.assembled_fullAdder ..) fun r =>
        .first (ih hp r.2) (assembled_ripple ..) fun _ => .pure _

/-- Beyond the demand for one width, the words are of one width. -/
theorem consults_sameWidth {a b : Word} {f : Unit → Build α} {w : Nat}
    (h : a.width = b.width → Build.Consults w (f ())) :
    Build.Consults w (requireSameWidth a b >>= f) where
  consulted {c _ _} hc hw hok := by
    obtain ⟨⟨⟩, c₁, hsame, hf⟩ := Build.bind_ok_iff.mp hok
    by_cases hwidth : a.width = b.width
    · obtain rfl : c = c₁ := by simpa [requireSameWidth, hwidth] using hsame
      exact (h hwidth).consulted hc hw hf
    · simp [requireSameWidth, hwidth] at hsame

/-- Each wire of two words of one width is in one of their pairs. -/
theorem exists_pair {a b : Word} {w : Nat} (hwidth : a.width = b.width) (hw : w ∈ a.bits ++ b.bits) :
    ∃ p ∈ a.bits.zip b.bits, w = p.1 ∨ w = p.2 := by
  rcases List.mem_append.mp hw with hw | hw
  · rw [← List.map_fst_zip (Nat.le_of_eq hwidth)] at hw
    obtain ⟨p, hp, rfl⟩ := List.mem_map.mp hw
    exact ⟨p, hp, .inl rfl⟩
  · rw [← List.map_snd_zip (Nat.le_of_eq hwidth.symm)] at hw
    obtain ⟨p, hp, rfl⟩ := List.mem_map.mp hw
    exact ⟨p, hp, .inr rfl⟩

theorem consults_add {a b : Word} {w : Nat} (hw : w ∈ a.bits ++ b.bits) :
    Build.Consults w (add a b) := by
  refine consults_sameWidth fun hwidth => .after (.wire _) fun carry => ?_
  obtain ⟨p, hp, hpair⟩ := exists_pair hwidth hw
  exact .first (consults_ripple hp hpair carry) (assembled_ripple ..) fun _ => .pure _

/-- The complements of the bits are consulted in their place. -/
theorem consults_negate {a : Word} {w : Nat} (hw : w ∈ a.bits) : Build.Consults w (negate a) := by
  have hrest : ∀ ws, Build.Assembled (do let one ← one a.width; add ⟨ws⟩ one) := fun ws =>
    .bind (assembled_ofConstants _) fun one => assembled_add ..
  refine .inverts hrest (fun ws n hn => ?_) hw
  exact .after (assembled_ofConstants _) fun one => consults_add (List.mem_append_left _ hn)

theorem consults_sub {a b : Word} {w : Nat} (hw : w ∈ a.bits ++ b.bits) :
    Build.Consults w (sub a b) := by
  refine .after (assembled_requireSameWidth a b) fun _ => ?_
  rcases List.mem_append.mp hw with hw | hw
  · exact .after (assembled_negate b) fun negB => consults_add (List.mem_append_left _ hw)
  · exact .first (consults_negate hw) (assembled_negate b) fun negB => assembled_add a negB

theorem gadget_add (a b : Word) : Gadget a b (add a b) bits where
  assembled := assembled_add a b
  settles := settles_add a b
  consults _ := consults_add

theorem gadget_negate (a : Word) : Gadget a a (negate a) bits where
  assembled := assembled_negate a
  settles := .after (Build.assembled_mapM .invert _) fun _ => .after (assembled_ofConstants _) fun _ =>
    settles_add ..
  consults _ hw := consults_negate ((List.mem_append.mp hw).elim id id)

theorem gadget_sub (a b : Word) : Gadget a b (sub a b) bits where
  assembled := assembled_sub a b
  settles := .after (assembled_requireSameWidth a b) fun _ => .after (assembled_negate b) fun _ =>
    settles_add ..
  consults _ := consults_sub

/-! ### What adders compute -/

/-- The sum, the negation and the difference of words are those of the numbers that the words are read
as, modulo two to the width. -/
theorem computes_modulo_width {a b : Word} (hc : Reachable c) (ho : c.origin ≠ .netlist)
    (hwidth : a.width = b.width) (ha : ∀ w ∈ a.bits, Usable c w) (hb : ∀ w ∈ b.bits, Usable c w) :
    Computes c a b (add a b) decodeUnsigned (fun m n r e =>
      r.width = a.width ∧ r.decodeUnsigned e = .ok ((m + n) % modulus a.width)) ∧
    Computes c a a (negate a) decodeUnsigned (fun m _ r e =>
      r.width = a.width ∧ r.decodeUnsigned e = .ok (residue (-m) a.width)) ∧
    Computes c a b (sub a b) decodeUnsigned (fun m n r e =>
      r.width = a.width ∧ r.decodeUnsigned e = .ok (residue (m - n) a.width)) := by
  have h : Buildable c := ⟨hc.complemented, ho⟩
  refine ⟨?_, ?_, ?_⟩
  · exact (gadget_add a b).computes_word h ha hb fun v m n hm hn => makes_add h hm hn hwidth
  · refine (gadget_negate a).computes_word h ha ha fun v m n hm hn => ?_
    rw [residue_natCast_neg hm.lt]
    exact makes_negate h hm
  · refine (gadget_sub a b).computes_word h ha hb fun v m n hm hn => ?_
    rw [residue_natCast_sub (hwidth ▸ hn.lt)]
    exact makes_sub h hm hn hwidth

/-- Two words share an input and a constant. Both are three, so the sum is two modulo four. -/
theorem computes_modulo_width_shared :
    ∃ c r d, Supplied c ∧ add ⟨[0, 1]⟩ ⟨[1, 0]⟩ c = .ok (r, d) ∧ d.execute.failure = none ∧
      decodeUnsigned ⟨[0, 1]⟩ d.execute.state = .ok 3 ∧
      decodeUnsigned ⟨[1, 0]⟩ d.execute.state = .ok 3 ∧
      r.decodeUnsigned d.execute.state = .ok 2 := by
  obtain ⟨c, hs, ho, husable, hrun⟩ :
      ∃ c, Supplied c ∧ c.origin = .synthesis ∧ (∀ w ∈ [0, 1], Usable c w) ∧
        (add ⟨[0, 1]⟩ ⟨[1, 0]⟩ c).map (fun p => (p.2.execute.failure,
          decodeUnsigned ⟨[0, 1]⟩ p.2.execute.state, decodeUnsigned ⟨[1, 0]⟩ p.2.execute.state)) =
            .ok (none, .ok 3, .ok 3) := by
    have hinput := Supplied.empty.supplies (supplies_build .issueInput rfl)
    have hassigned := hinput.supplies
      (supplies_of_assigns (.assign 0 true) nofun rfl fun w hw _ => by cases hw; rfl)
    have hconst := hassigned.supplies (supplies_build (.constant true) rfl)
    refine ⟨_, hconst, rfl, List.forall_mem_cons.mpr ⟨.inl (.inl rfl), ?_⟩, by decide +kernel⟩
    exact List.forall_mem_singleton.mpr (.inr ⟨true, rfl, rfl, nofun, rfl⟩)
  obtain ⟨⟨r, d, hadd, hsum⟩, -, -⟩ := computes_modulo_width (a := ⟨[0, 1]⟩) (b := ⟨[1, 0]⟩)
    hs.reachable (by simp [ho]) rfl husable fun w hw => husable w (List.mem_reverse.mp hw)
  rw [hadd] at hrun
  obtain ⟨hok, ha, hb⟩ : _ ∧ _ ∧ _ := by simpa [Except.map] using hrun
  obtain ⟨-, hsum⟩ := hsum _ ⟨d, .refl, hok, rfl⟩
  exact ⟨c, r, d, hs, hadd, hok, ha, hb, (hsum 3 3 ha hb).2⟩

end Word

end GateNet
