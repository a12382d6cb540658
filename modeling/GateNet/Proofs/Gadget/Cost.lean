import GateNet.Proofs.Cost
import GateNet.Proofs.Gadget.Divider

/-!
What gadgets cost. The cost of a gadget depends on the width of its words alone, provided that the wires
that it inverts are inputs, or that their complements are counted where they are built: the complement of
a quotient bit when the bit chooses the remainder, and those of the divisor's bits in the first step.
-/

namespace GateNet

open Circuit hiding value

namespace Build

variable {S : Finset Nat} {sel : Nat}

/-! ### Gadgets on bits -/

theorem spends_fullAdder (a b carry : Nat) : Spends S 5 (fullAdder a b carry) fun _ => True :=
  .cost (.bind .gate fun _ _ => .bind .gate fun _ _ => .bind .gate fun _ _ => .bind .gate fun _ _ =>
    .bind .gate fun _ _ => .pure trivial) rfl

theorem spends_select (h : sel ∈ S) (t f : Nat) : Spends S 3 (select sel t f) fun _ => True :=
  .cost (.bind (.invert h) fun _ _ => .bind .gate fun _ _ => .bind .gate fun _ _ => .gate) rfl

/-- The gate whose output is inverted costs one gate more. -/
theorem spends_bitEqual (a b : Nat) : Spends S 2 (bitEqual a b) fun _ => True :=
  .cost (.adopt .gate .gate (fun _ _ => rfl) (fun _ _ _ hw => List.mem_singleton.mp hw ▸ .invert)
    fun _ _ => .invert (by simp)) rfl

theorem lends_select (sel t f : Nat) : Lends S (select sel t f) fun w => [w] :=
  .after (Assembled.invert sel).yields fun _ _ => .after (Assembled.gate ..).yields fun _ _ =>
    .after (Assembled.gate ..).yields fun _ _ => .gate

/-! ### Adder stages on any wires -/

variable {α β : Type} {c : Circuit}

/-- The step succeeds, and what it returns and leads to is as stated. -/
def Succeeds (c : Circuit) (m : Build α) (post : α → Circuit → Prop) : Prop :=
  ∃ r d, m c = .ok (r, d) ∧ Buildable d ∧ Remains c d ∧ post r d

theorem Succeeds.bind {m : Build α} {f : α → Build β} {P : α → Circuit → Prop}
    {Q : β → Circuit → Prop} (hm : Succeeds c m P)
    (hf : ∀ r d, Buildable d → Remains c d → P r d → Succeeds d (f r) Q) :
    Succeeds c (m >>= f) Q := by
  obtain ⟨r, d, hok, hd, hremains, hr⟩ := hm
  obtain ⟨s, e, hok', he, hremains', hs⟩ := hf r d hd hremains hr
  exact ⟨s, e, bind_ok_iff.mpr ⟨r, d, hok, hok'⟩, he, hremains.trans hremains', hs⟩

theorem succeeds_gate (h : Buildable c) (function : GateFunction) {u w : Nat}
    (hu : c.wires.contains u = true) (hw : c.wires.contains w = true) :
    Succeeds c (addGate function u w) fun out d => d.wires.contains out = true := by
  have can := h.canIssue h.origin_ne
  have free := (h.toWellFormed.idle can.unused).not_driven
  have hok : addGate function u w c = .ok (c.nextWire, c.withGate function u w) :=
    addGate_ok_iff.mpr ⟨can, hu, hw, free, rfl, rfl⟩
  obtain ⟨hd, hremains⟩ := (Assembled.gate function u w).built h hok
  refine ⟨_, _, hok, hd, hremains, ?_⟩
  exact hd.registered_of_driven ((isGateOutput_file ..).mpr (.inl rfl))

/-- A stage of an adder takes any wires. -/
theorem succeeds_fullAdder (h : Buildable c) {u w carry : Nat} (hu : c.wires.contains u = true)
    (hw : c.wires.contains w = true) (hcarry : c.wires.contains carry = true) :
    Succeeds c (fullAdder u w carry) fun r d => d.wires.contains r.2 = true := by
  refine (succeeds_gate h .xor hu hw).bind fun half d₁ h₁ r₁ hhalf => ?_
  have hcarry := r₁.contains hcarry
  refine (succeeds_gate h₁ .xor hhalf hcarry).bind fun sum d₂ h₂ r₂ _ => ?_
  have kept := r₁.trans r₂
  refine (succeeds_gate h₂ .and (kept.contains hu) (kept.contains hw)).bind fun both d₃ h₃ r₃ hboth => ?_
  have kept := r₂.trans r₃
  refine (succeeds_gate h₃ .and (kept.contains hhalf) (kept.contains hcarry)).bind
    fun passed d₄ h₄ r₄ hpassed => ?_
  refine (succeeds_gate h₄ .or (r₄.contains hboth) hpassed).bind fun carryOut d₅ h₅ _ hout => ?_
  exact ⟨_, _, rfl, h₅, .refl d₅, hout⟩

end Build

namespace Word

open Build

variable {S : Finset Nat} {a b : Word}

theorem spends_requireSameWidth (a b : Word) :
    Spends S 0 (requireSameWidth a b) fun _ => a.width = b.width :=
  .still fun {c _ d} hok => by
    by_cases hw : a.width = b.width
    · simp only [requireSameWidth, hw, if_true] at hok
      cases hok
      exact ⟨rfl, hw⟩
    · simp [requireSameWidth, hw] at hok

theorem spends_msb (a : Word) : Spends S 0 (liftM a.msb : Build Nat) fun w => w ∈ a.bits := by
  cases hlast : a.bits.getLast? with
  | none =>
    have hmsb : a.msb = .error .emptyWord := by rw [msb, hlast]
    rw [hmsb]
    exact .fault
  | some w =>
    have hmsb : a.msb = .ok w := by rw [msb, hlast]
    rw [hmsb]
    exact .pure (List.mem_of_getLast? hlast)

theorem length_pairs (h : a.width = b.width) : (a.bits.zip b.bits).length = a.width := by
  rw [List.length_zip]
  exact Nat.min_eq_left (Nat.le_of_eq h)

theorem spends_ofConstants (xs : List Bool) :
    Spends S 0 (ofConstants xs) fun r => r.width = xs.length :=
  .free (.cost (.mapM fun _ _ => .wire) (Nat.mul_zero _)) fun _ hws => .pure hws

/-! ### Adders -/

theorem spends_ripple (carry : Nat) (pairs : List (Nat × Nat)) :
    Spends S (5 * pairs.length) (ripple carry pairs) fun ws => ws.length = pairs.length := by
  induction pairs generalizing carry with
  | nil => exact .pure rfl
  | cons pair rest ih =>
    refine .cost (.bind (spends_fullAdder ..) fun r _ => .bind (ih r.2) fun ws hws => .pure ?_) ?_
    · simp [hws]
    · rw [List.length_cons]
      omega

theorem spends_add (a b : Word) : Spends S (5 * a.width) (add a b) fun r => r.width = a.width := by
  refine .free (spends_requireSameWidth a b) fun _ hw => .free .wire fun carry _ => ?_
  have hlen := length_pairs hw
  refine .cost (.bind (spends_ripple carry _) fun ws hws => .pure ?_) ?_
  · exact hws.trans hlen
  · rw [hlen, Nat.add_zero]

theorem spends_negate (h : ∀ w ∈ a.bits, w ∈ S) :
    Spends S (5 * a.width) (negate a) fun r => r.width = a.width := by
  refine .free (.cost (.mapM fun w hw => .invert (h w hw)) (Nat.mul_zero _)) fun ws hws => ?_
  refine .free (spends_ofConstants _) fun one _ => ?_
  have hwide : width ⟨ws⟩ = a.width := hws
  rw [← hwide]
  exact spends_add ..

theorem spends_sub (h : ∀ w ∈ b.bits, w ∈ S) :
    Spends S (10 * b.width) (sub a b) fun r => r.width = b.width := by
  refine .free (spends_requireSameWidth a b) fun _ hw => ?_
  refine .imp (.cost (.bind (spends_negate h) fun neg _ => spends_add a neg) ?_) fun r hr => ?_
  · omega
  · exact hr.trans hw

theorem spends_select {sel : Nat} (h : sel ∈ S) (a b : Word) :
    Spends S (3 * a.width) (select sel a b) fun r => r.width = a.width := by
  refine .free (spends_requireSameWidth a b) fun _ hw => ?_
  have hlen := length_pairs hw
  refine .cost (.bind (.mapM fun p _ => Build.spends_select h p.1 p.2) fun ws hws => .pure ?_) ?_
  · exact hws.trans hlen
  · rw [hlen]
    omega

/-! ### Comparators -/

/-- The cost of comparing words of a width. -/
def lessCost (width : Nat) : Nat := 4 + (6 * (width - 1) - 3)

theorem spends_lessBelow {pairs : List (Nat × Nat)} (h : ∀ p ∈ pairs, p.1 ∈ S) (result equal : Nat) :
    Spends S (6 * pairs.length - 3) (lessBelow result equal pairs) fun _ => True := by
  induction pairs generalizing result equal with
  | nil => exact .pure trivial
  | cons p rest ih =>
    refine .free (.invert (h p (List.mem_cons_self ..))) fun notA _ => ?_
    cases rest with
    | nil =>
      exact .cost (.bind .gate fun _ _ => .bind .gate fun _ _ => .bind .gate fun _ _ =>
        .pure trivial) rfl
    | cons next more =>
      refine .cost (.bind .gate fun below _ => .bind .gate fun decided _ => .bind .gate fun result _ =>
        .bind (spends_bitEqual ..) fun same _ => .bind .gate fun equal _ =>
        ih (fun q hq => h q (List.mem_cons_of_mem p hq)) result equal) ?_
      simp only [List.length_cons]
      omega

theorem spends_lessFromTop (h : ∀ w ∈ a.bits, w ∈ S) (signs : Nat) :
    Spends S (3 + (6 * (a.width - 1) - 3)) (lessFromTop a b signs) fun _ => True := by
  refine .free (spends_requireSameWidth a b) fun _ hw => ?_
  cases htop : pairsFromTop a b with
  | nil => exact .fault
  | cons top rest =>
    have hlen : rest.length = a.width - 1 := by
      have hall := congrArg List.length htop
      rw [pairsFromTop, List.length_reverse, length_pairs hw, List.length_cons] at hall
      omega
    have hrest : ∀ p ∈ rest, p.1 ∈ S := fun p hp => by
      have hmem : p ∈ pairsFromTop a b := htop ▸ List.mem_cons_of_mem top hp
      exact h _ (List.of_mem_zip (List.mem_reverse.mp hmem)).1
    refine .free .wire fun start _ => .cost (.bind (spends_bitEqual ..) fun same _ =>
      .bind .gate fun equal _ => spends_lessBelow hrest signs equal) ?_
    rw [hlen]
    omega

theorem spends_less (ha : ∀ w ∈ a.bits, w ∈ S) (hb : ∀ w ∈ b.bits, w ∈ S) :
    Spends S (lessCost a.width) (less a b) fun _ => True := by
  refine .free (spends_requireSameWidth a b) fun _ _ => .free (spends_msb b) fun w hw => ?_
  refine .free (.invert (hb w hw)) fun notB _ => .free (spends_msb a) fun topA _ => ?_
  refine .cost (.bind .gate fun signs _ => spends_lessFromTop ha signs) ?_
  rw [lessCost]
  omega

theorem spends_lessUnsigned (ha : ∀ w ∈ a.bits, w ∈ S) :
    Spends S (lessCost a.width) (lessUnsigned a b) fun _ => True := by
  refine .free (spends_requireSameWidth a b) fun _ _ => .free (spends_msb a) fun w hw => ?_
  refine .free (.invert (ha w hw)) fun notA _ => .free (spends_msb b) fun topB _ => ?_
  refine .cost (.bind .gate fun signs _ => spends_lessFromTop ha signs) ?_
  rw [lessCost]
  omega

theorem spends_equalFrom (result : Nat) (pairs : List (Nat × Nat)) :
    Spends S (3 * pairs.length) (equalFrom result pairs) fun _ => True := by
  induction pairs generalizing result with
  | nil => exact .pure trivial
  | cons p rest ih =>
    refine .cost (.bind (spends_bitEqual ..) fun same _ => .bind .gate fun result _ => ih result) ?_
    rw [List.length_cons]
    omega

theorem spends_equal (a b : Word) : Spends S (3 * a.width) (Word.equal a b) fun _ => True := by
  refine .free (spends_requireSameWidth a b) fun _ hw => .free .wire fun start _ => ?_
  refine .cost (spends_equalFrom start _) ?_
  rw [length_pairs hw]

/-- A comparator costs one gate more, and an equality, when equality is added. -/
theorem spends_orEqual {k : Nat} {less : Build Nat} (h : Spends S k less fun _ => True) (a b : Word) :
    Spends S (k + 3 * a.width + 1) (do let lt ← less; let eq ← Word.equal a b; Build.or lt eq)
      fun _ => True :=
  .cost (.bind h fun _ _ => .bind (spends_equal a b) fun _ _ => .gate) (Nat.add_assoc ..).symm

/-! ### Wires that gadgets pay for -/

variable {w : Nat}

theorem pays_inverts {ws : List Nat} (hw : w ∈ ws) : Pays w (ws.mapM Build.invert) := by
  induction ws with
  | nil => cases hw
  | cons u rest ih =>
    rw [List.mapM_cons]
    rcases List.mem_cons.mp hw with rfl | hw
    · exact .first .invert (Assembled.invert w).yields fun _ _ =>
        (Assembled.bind (assembled_mapM .invert rest) fun _ => .pure _).yields
    · exact .after (Assembled.invert u).yields fun _ _ =>
        .first (ih hw) (assembled_mapM .invert rest).yields fun _ _ => (Assembled.pure _).yields

theorem pays_negate (hw : w ∈ a.bits) : Pays w (negate a) :=
  .first (pays_inverts hw) (assembled_mapM .invert _).yields fun _ _ =>
    (Assembled.bind (assembled_ofConstants _) fun _ => assembled_add ..).yields

theorem pays_sub (hw : w ∈ b.bits) : Pays w (sub a b) :=
  .after (assembled_requireSameWidth a b).yields fun _ _ =>
    .first (pays_negate hw) (assembled_negate b).yields fun neg _ => (assembled_add a neg).yields

/-- The complement of the wire that chooses is built for the first bit. -/
theorem pays_select (hpos : 1 ≤ a.width) : Pays w (select w a b) := by
  refine .after (spends_requireSameWidth (S := ∅) a b).toYields fun _ hw => ?_
  refine .first ?_ (assembled_mapM (fun _ => Build.assembled_select ..) _).yields fun _ _ =>
    (Assembled.pure _).yields
  cases hzip : a.bits.zip b.bits with
  | nil =>
    have hlen := congrArg List.length hzip
    rw [length_pairs hw, List.length_nil] at hlen
    omega
  | cons p rest =>
    rw [List.mapM_cons]
    have hrest := assembled_mapM (fun p : Nat × Nat => Build.assembled_select w p.1 p.2) rest
    refine .first ?_ (Build.assembled_select ..).yields fun _ _ =>
      (Assembled.bind hrest fun _ => .pure _).yields
    exact .first .invert (Assembled.invert w).yields fun _ _ =>
      (Assembled.bind (.gate ..) fun _ => .bind (.gate ..) fun _ => .gate ..).yields

/-! ### Dividers -/

theorem spends_abs (h : ∀ w ∈ a.bits, w ∈ S) :
    Spends S (8 * a.width) (abs a) fun r => r.width = a.width := by
  have hsum : 5 * a.width + 3 * a.width = 8 * a.width := by omega
  refine .cost (.bind (spends_negate h) fun neg hneg => .free (spends_msb a) fun w hw => ?_) hsum
  rw [← hneg]
  exact spends_select (h w hw) neg a

/-- Every choice ends in a gate of its own, and none of these is inverted by another choice. -/
theorem lends_selects {sel : Nat} (h : sel ∈ S) (pairs : List (Nat × Nat)) :
    Lends S (pairs.mapM fun p => Build.select sel p.1 p.2) id := by
  induction pairs with
  | nil =>
    rw [List.mapM_nil]
    exact ⟨fun _ _ hok => by
      obtain ⟨rfl, rfl⟩ := Build.pure_ok_iff.mp hok
      exact ⟨.nil, nofun⟩⟩
  | cons p rest ih =>
    rw [List.mapM_cons]
    refine ⟨fun {c ws d} hc hS hok => ?_⟩
    obtain ⟨w, c₁, hfirst, hok⟩ := Build.bind_ok_iff.mp hok
    obtain ⟨ws, c₂, hrest, hok⟩ := Build.bind_ok_iff.mp hok
    obtain ⟨rfl, rfl⟩ := Build.pure_ok_iff.mp hok
    obtain ⟨h₁, hremains⟩ := (Build.assembled_select ..).built hc hfirst
    have hS₁ : ∀ u ∈ S, c₁.wires.contains u = true := fun u hu => hremains.contains (hS u hu)
    obtain ⟨hnew, howes⟩ := ((Build.lends_select ..).lent hc hS hfirst).2 w (List.mem_singleton_self w)
    have hw := registered_of_owes h₁.toWellFormed howes
    have hwS : w ∉ S := fun hmem => by
      rw [hS w hmem] at hnew
      cases hnew
    obtain ⟨hnodup, hlent⟩ := ih.lent h₁ hS₁ hrest
    have hkept : d.owes w = c₁.owes w :=
      Spends.owes_eq (.mapM fun q _ => Build.spends_select h q.1 q.2)
        (.mapM fun q _ => Build.spends_select (Finset.mem_insert_of_mem h) q.1 q.2) hwS h₁
        (fun u hu => (Finset.mem_insert.mp hu).elim (fun he => he ▸ hw) (hS₁ u)) hrest
    refine ⟨List.nodup_cons.mpr ⟨fun hmem => ?_, hnodup⟩, fun v hv => ?_⟩
    · rw [(hlent w hmem).1] at hw
      cases hw
    · rcases List.mem_cons.mp hv with rfl | hv
      · exact ⟨hnew, hkept.trans howes⟩
      · exact ⟨hremains.unregistered (hlent v hv).1, (hlent v hv).2⟩

theorem lends_abs (h : ∀ w ∈ a.bits, w ∈ S) : Lends S (abs a) bits :=
  .after (assembled_negate a).yields fun neg _ => .after (spends_msb (S := S) a).toYields fun w hw =>
    .after (assembled_requireSameWidth ..).yields fun _ _ =>
      .map (lends_selects (h w hw) (neg.bits.zip a.bits)) fun _ => rfl

theorem lends_lessOrEqualUnsigned (a b : Word) : Lends S (lessOrEqualUnsigned a b) fun w => [w] :=
  .after (assembled_lessUnsigned a b).yields fun _ _ => .after (assembled_equal a b).yields fun _ _ =>
    .gate

/-- The choice of the next remainder pays for the quotient bit. -/
theorem pays_take {remainder divisor : Word} (hpos : 1 ≤ divisor.width) (take : Nat) :
    Pays take (do
      let reduced ← sub remainder divisor
      let next ← select take reduced remainder
      return (next, take)) :=
  .after (spends_sub (S := divisor.bits.toFinset) fun _ hw => List.mem_toFinset.mpr hw).toYields
    fun _ hr => .first (pays_select (hr ▸ hpos)) (assembled_select ..).yields fun _ _ =>
      (Assembled.pure _).yields

theorem spends_take (remainder : Word) {divisor : Word} {take : Nat} (h : ∀ w ∈ divisor.bits, w ∈ S)
    (ht : take ∈ S) :
    Spends S (13 * divisor.width) (do
      let reduced ← sub remainder divisor
      let next ← select take reduced remainder
      return (next, take)) fun _ => True := by
  have hsum : 10 * divisor.width + 3 * divisor.width = 13 * divisor.width := by omega
  refine .cost (.bind (spends_sub h) fun reduced hr => ?_) hsum
  rw [← hr]
  exact .cost (.bind (spends_select ht reduced remainder) fun _ _ => .pure trivial) (Nat.add_zero _)

/-- The cost of a division step of a width. -/
def stepCost (width : Nat) : Nat := lessCost width + 2 + 16 * width

/-- A step compares, subtracts and chooses, and its comparison costs one gate more. -/
theorem spends_divisionStep (remainder : Word) {divisor : Word} (h : ∀ w ∈ divisor.bits, w ∈ S)
    (hpos : 1 ≤ divisor.width) :
    Spends S (stepCost divisor.width) (divisionStep remainder divisor) fun _ => True := by
  refine .cost (.adopt (n := 1) (spends_orEqual (spends_lessUnsigned h) ..) (lends_lessOrEqualUnsigned ..)
    (fun _ _ => rfl) (fun take _ w hw => List.mem_singleton.mp hw ▸ pays_take hpos take)
    fun take _ => spends_take remainder (fun w hw => Finset.mem_union_right _ (h w hw)) (by simp)) ?_
  rw [stepCost]
  omega

theorem pays_divisionStep {w : Nat} (remainder : Word) {divisor : Word} (hw : w ∈ divisor.bits) :
    Pays w (divisionStep remainder divisor) :=
  .after (assembled_lessOrEqualUnsigned ..).yields fun _ _ =>
    .first (pays_sub hw) (assembled_sub ..).yields fun _ _ =>
      (Assembled.bind (assembled_select ..) fun _ => .pure _).yields

/-- The quotient bit of a step has its complement afterwards. -/
theorem divisionStep_paid {c d : Circuit} {remainder divisor next : Word} {take : Nat}
    (hc : Buildable c) (hpos : 1 ≤ divisor.width)
    (hok : divisionStep remainder divisor c = .ok ((next, take), d)) : Paid d take := by
  obtain ⟨bit, c₁, hle, hrest⟩ := Build.bind_ok_iff.mp hok
  obtain ⟨h₁, -⟩ := (assembled_lessOrEqualUnsigned ..).built hc hle
  obtain ⟨-, hlent⟩ := (lends_lessOrEqualUnsigned (S := ∅) ..).lent hc (by simp) hle
  have hbit := registered_of_owes h₁.toWellFormed (hlent bit (List.mem_singleton_self bit)).2
  have hpaid := (pays_take hpos bit).paid h₁ hbit hrest
  -- the bit that was compared is the one that is returned
  obtain ⟨reduced, c₂, -, hrest⟩ := Build.bind_ok_iff.mp hrest
  obtain ⟨chosen, c₃, -, hrest⟩ := Build.bind_ok_iff.mp hrest
  obtain ⟨⟨⟩, rfl⟩ := Build.pure_ok_iff.mp hrest
  exact hpaid

theorem spends_divideFrom {divisor : Word} (h : ∀ w ∈ divisor.bits, w ∈ S) (hpos : 1 ≤ divisor.width)
    (remainder : Word) (quotient bits : List Nat) :
    Spends S (bits.length * stepCost divisor.width) (divideFrom divisor remainder quotient bits)
      fun q => q.width = quotient.length + bits.length := by
  induction bits generalizing remainder quotient with
  | nil => exact .cost (.pure rfl) (Nat.zero_mul _).symm
  | cons bit rest ih =>
    refine .cost (.bind (spends_divisionStep _ h hpos) fun r _ =>
      .imp (ih r.1 (r.2 :: quotient)) fun q hq => ?_) ?_
    · rw [hq, List.length_cons, List.length_cons]
      omega
    · exact (Nat.add_comm ..).trans (Nat.add_one_mul ..).symm

/-- The first step pays for the divisor's bits. -/
theorem pays_divideFrom {w : Nat} {divisor : Word} (hw : w ∈ divisor.bits) (remainder : Word)
    (quotient : List Nat) {bits : List Nat} (hbits : bits ≠ []) :
    Pays w (divideFrom divisor remainder quotient bits) := by
  cases bits with
  | nil => exact absurd rfl hbits
  | cons bit rest =>
    exact .first (pays_divisionStep _ hw) (assembled_divisionStep ..).yields fun _ _ =>
      (assembled_divideFrom ..).yields

/-- All quotient bits have their complements. -/
theorem divideFrom_paid {c d : Circuit} {divisor remainder q : Word} {quotient bits : List Nat}
    (hc : Buildable c) (hpos : 1 ≤ divisor.width)
    (hquotient : ∀ w ∈ quotient, Paid c w)
    (hok : divideFrom divisor remainder quotient bits c = .ok (q, d)) : ∀ w ∈ q.bits, Paid d w := by
  induction bits generalizing c remainder quotient with
  | nil =>
    obtain ⟨rfl, rfl⟩ := Build.pure_ok_iff.mp hok
    exact hquotient
  | cons bit rest ih =>
    obtain ⟨⟨next, take⟩, c₁, hstep, hrest⟩ := Build.bind_ok_iff.mp hok
    obtain ⟨h₁, hremains⟩ := (assembled_divisionStep ..).built hc hstep
    have htake := divisionStep_paid hc hpos hstep
    exact ih h₁ (List.forall_mem_cons.mpr ⟨htake, fun w hw => (hquotient w hw).remains hremains⟩) hrest

/-- A quotient whose bits have their complements is negated, and one of the two is chosen; the wire that
chooses costs its own gate and that of its complement. -/
theorem spends_signed {quotient : Word} (hq : ∀ w ∈ quotient.bits, w ∈ S) (hpos : 1 ≤ quotient.width) :
    Spends S (8 * quotient.width + 2) (do
      let negated ← negate quotient
      let signsDiffer ← Build.xor (← a.msb) (← b.msb)
      select signsDiffer negated quotient) fun r => r.width = quotient.width := by
  have hsum : 5 * quotient.width + (1 + 1 + 3 * quotient.width) = 8 * quotient.width + 2 := by omega
  refine .cost (.bind (spends_negate hq) fun negated hneg => ?_) hsum
  refine .free (spends_msb a) fun topA _ => .free (spends_msb b) fun topB _ => ?_
  rw [← hneg] at hpos ⊢
  exact .adopt .gate .gate (fun _ _ => rfl)
    (fun signs _ w hw => List.mem_singleton.mp hw ▸ pays_select hpos)
    fun signs _ => spends_select (by simp) negated quotient

/-- What is left of a division after the magnitudes. -/
theorem spends_quotient {dividend divisor : Word} (h : ∀ w ∈ divisor.bits, w ∈ S)
    (hpos : 1 ≤ divisor.width) (hwidth : dividend.width = divisor.width) :
    Spends S (divisor.width * stepCost divisor.width + (8 * divisor.width + 2)) (do
      let remainder ← ofConstants (List.replicate a.width false)
      let quotient ← divideFrom divisor remainder [] dividend.bits.reverse
      let negated ← negate quotient
      let signsDiffer ← Build.xor (← a.msb) (← b.msb)
      select signsDiffer negated quotient) fun _ => True := by
  have hlen : dividend.bits.reverse.length = divisor.width := by
    rw [List.length_reverse]
    exact hwidth
  refine .free (spends_ofConstants _) fun remainder _ => ?_
  have hdivide := spends_divideFrom h hpos remainder [] dividend.bits.reverse
  rw [hlen, List.length_nil, Nat.zero_add] at hdivide
  refine .reuse hdivide (fun hc hok => divideFrom_paid hc hpos (by simp) hok) fun quotient hq => ?_
  rw [← hq] at hpos ⊢
  refine .imp (spends_signed (fun w hw => ?_) hpos) fun _ _ => trivial
  exact Finset.mem_union_left _ (List.mem_toFinset.mpr hw)

theorem pays_quotient {w : Nat} {dividend divisor : Word} (hw : w ∈ divisor.bits)
    (hpos : 1 ≤ dividend.width) :
    Pays w (do
      let remainder ← ofConstants (List.replicate a.width false)
      let quotient ← divideFrom divisor remainder [] dividend.bits.reverse
      let negated ← negate quotient
      let signsDiffer ← Build.xor (← a.msb) (← b.msb)
      select signsDiffer negated quotient) := by
  have hbits : dividend.bits.reverse ≠ [] := by
    rw [Ne, List.reverse_eq_nil_iff, ← List.length_eq_zero_iff]
    exact Nat.ne_of_gt hpos
  refine .after (assembled_ofConstants _).yields fun remainder _ =>
    .first (pays_divideFrom hw remainder [] hbits) (assembled_divideFrom ..).yields fun quotient _ =>
      Assembled.yields (.bind (assembled_negate _) fun _ => .bind (assembled_msb _) fun _ =>
        .bind (assembled_msb _) fun _ => .bind (.gate ..) fun _ => assembled_select ..)

/-- The divisor's bits are inverted in the first step; each costs one gate more. -/
theorem spends_div (ha : ∀ w ∈ a.bits, w ∈ S) (hb : ∀ w ∈ b.bits, w ∈ S) (hpos : 1 ≤ b.width) :
    Spends S (b.width * stepCost b.width + 25 * b.width + 2) (Word.div a b) fun _ => True := by
  refine .free (spends_requireSameWidth a b) fun _ hw => ?_
  refine .cost (.bind (spends_abs ha) fun dividend hdividend => .adopt (spends_abs hb) (lends_abs hb)
    (fun divisor hdivisor => hdivisor) (fun divisor _ w hwd => pays_quotient hwd ?_)
    fun divisor hdivisor => ?_) (?_ : 8 * a.width + (8 * b.width + b.width +
      (b.width * stepCost b.width + (8 * b.width + 2))) = _)
  · rw [hdividend, hw]
    exact hpos
  · rw [← hdivisor] at hpos ⊢
    refine spends_quotient (fun w hw => ?_) hpos (hdividend.trans (hw.trans hdivisor.symm))
    exact Finset.mem_union_left _ (List.mem_toFinset.mpr hw)
  · omega

/-! ### Sums of any wires -/

variable {c : Circuit}

theorem succeeds_ripple (h : Buildable c) {carry : Nat} {pairs : List (Nat × Nat)}
    (hpairs : ∀ p ∈ pairs, c.wires.contains p.1 = true ∧ c.wires.contains p.2 = true)
    (hcarry : c.wires.contains carry = true) : Succeeds c (ripple carry pairs) fun _ _ => True := by
  induction pairs generalizing c carry with
  | nil => exact ⟨_, _, rfl, h, .refl c, trivial⟩
  | cons p rest ih =>
    obtain ⟨hfirst, hrest⟩ := List.forall_mem_cons.mp hpairs
    refine (succeeds_fullAdder h hfirst.1 hfirst.2 hcarry).bind fun r d hd hremains hout => ?_
    refine (ih hd (fun q hq => ?_) hout).bind fun sums e he _ _ => ⟨_, _, rfl, he, .refl e, trivial⟩
    exact ⟨hremains.contains (hrest q hq).1, hremains.contains (hrest q hq).2⟩

theorem succeeds_add (h : Buildable c) (hwidth : a.width = b.width)
    (hreg : ∀ w ∈ a.bits ++ b.bits, c.wires.contains w = true) :
    Succeeds c (add a b) fun _ _ => True := by
  refine Succeeds.bind (P := fun _ _ => True) ⟨(), c, if_pos hwidth, h, .refl c, trivial⟩
    fun _ d hd hremains _ => ?_
  obtain ⟨carry, e, hok, adv, hcarry⟩ := makes_constant (fun _ => none) hd false
  have hout := hcarry.operand.registered adv.built.toWellFormed
  have hkept := hremains.trans adv.remains
  have hpairs : ∀ p ∈ a.bits.zip b.bits,
      e.wires.contains p.1 = true ∧ e.wires.contains p.2 = true := fun p hp => by
    obtain ⟨ha, hb⟩ := List.of_mem_zip hp
    exact ⟨hkept.contains (hreg _ (List.mem_append_left _ ha)),
      hkept.contains (hreg _ (List.mem_append_right _ hb))⟩
  obtain ⟨sums, f, hripple, hf, hremains', -⟩ := succeeds_ripple adv.built hpairs hout
  exact ⟨⟨sums⟩, f, Build.bind_ok_iff.mpr ⟨carry, e, hok, Build.bind_ok_iff.mpr ⟨sums, f, hripple, rfl⟩⟩,
    hf, adv.remains.trans hremains', trivial⟩

/-! ### The numbers of gates -/

theorem lessCost_of_two_le {n : Nat} (hn : 2 ≤ n) : lessCost n = 6 * n - 5 := by
  rw [lessCost]
  omega

theorem divCost_of_two_le {n : Nat} (hn : 2 ≤ n) :
    n * stepCost n + 25 * n + 2 = 22 * n * n + 22 * n + 2 := by
  obtain ⟨k, rfl⟩ := Nat.exists_eq_add_of_le' hn
  have hstep : stepCost (k + 2) = 22 * k + 41 := by
    rw [stepCost, lessCost_of_two_le hn]
    omega
  rw [hstep]
  ring

/-- Gadgets on inputs succeed, at their costs. -/
theorem adds_of_inputs (h : Buildable c) (hwidth : a.width = b.width)
    (hi : ∀ w ∈ a.bits ++ b.bits, c.isInput w = true) :
    Adds c (negate a) (5 * a.width) ∧ Adds c (sub a b) (10 * a.width) ∧
      Adds c (Word.equal a b) (3 * a.width) ∧
      (1 ≤ a.width →
        Adds c (less a b) (lessCost a.width) ∧ Adds c (lessUnsigned a b) (lessCost a.width) ∧
        Adds c (lessOrEqual a b) (lessCost a.width + 3 * a.width + 1) ∧
        Adds c (lessOrEqualUnsigned a b) (lessCost a.width + 3 * a.width + 1) ∧
        Adds c (Word.div a b) (a.width * stepCost a.width + 25 * a.width + 2)) := by
  obtain ⟨ha, hb⟩ := List.forall_mem_append.mp hi
  have hS : ∀ w ∈ (a.bits ++ b.bits).toFinset, c.isInput w = true := fun w hw =>
    hi w (List.mem_toFinset.mp hw)
  have haS : ∀ w ∈ a.bits, w ∈ (a.bits ++ b.bits).toFinset := fun w hw =>
    List.mem_toFinset.mpr (List.mem_append_left _ hw)
  have hbS : ∀ w ∈ b.bits, w ∈ (a.bits ++ b.bits).toFinset := fun w hw =>
    List.mem_toFinset.mpr (List.mem_append_right _ hw)
  obtain ⟨m, hm⟩ := Holds.of_usable fun w hw => Or.inl (.inl (ha w hw))
  obtain ⟨n, hn⟩ := Holds.of_usable fun w hw => Or.inl (.inl (hb w hw))
  refine ⟨(spends_negate haS).adds h hS (makes_negate h hm).succeeds, ?_,
    (spends_equal a b).adds h hS (makes_equal h hm hn hwidth).succeeds, fun hpos => ?_⟩
  · rw [hwidth]
    exact (spends_sub hbS).adds h hS (makes_sub h hm hn hwidth).succeeds
  obtain ⟨k, hk⟩ := Nat.exists_eq_add_of_le' hpos
  refine ⟨?_, ?_, ?_, ?_, ?_⟩
  · exact (spends_less haS hbS).adds h hS (makes_less h hm hn hwidth hk).succeeds
  · exact (spends_lessUnsigned haS).adds h hS (makes_lessUnsigned h hm hn hwidth hk).succeeds
  · exact (spends_orEqual (spends_less haS hbS) a b).adds h hS
      (makes_lessOrEqual h hm hn hwidth hk).succeeds
  · exact (spends_orEqual (spends_lessUnsigned haS) a b).adds h hS
      (makes_lessOrEqualUnsigned h hm hn hwidth hk).succeeds
  · have hdiv := (spends_div haS hbS (hwidth ▸ hpos)).adds h hS
      (makes_div h hm hn hwidth hk).succeeds
    rwa [← hwidth] at hdiv

/-- The numbers of gates that gadgets add depend on the width alone, whatever the circuit is: adders may
be given any wires, and the others inputs, which may be shared and may have been inverted before. -/
theorem adds_by_width (hc : Reachable c) (ho : c.origin ≠ .netlist) (hwidth : a.width = b.width) :
    ((∀ w ∈ a.bits ++ b.bits, c.wires.contains w = true) → Adds c (add a b) (5 * a.width)) ∧
    ((∀ w ∈ a.bits ++ b.bits, c.isInput w = true) →
      Adds c (negate a) (5 * a.width) ∧ Adds c (sub a b) (10 * a.width) ∧
      Adds c (Word.equal a b) (3 * a.width) ∧
      (a.width = 1 →
        Adds c (less a b) 4 ∧ Adds c (lessUnsigned a b) 4 ∧
        Adds c (lessOrEqual a b) 8 ∧ Adds c (lessOrEqualUnsigned a b) 8 ∧
        Adds c (Word.div a b) 49) ∧
      (2 ≤ a.width →
        Adds c (less a b) (6 * a.width - 5) ∧ Adds c (lessUnsigned a b) (6 * a.width - 5) ∧
        Adds c (lessOrEqual a b) (9 * a.width - 4) ∧
        Adds c (lessOrEqualUnsigned a b) (9 * a.width - 4) ∧
        Adds c (Word.div a b) (22 * a.width * a.width + 22 * a.width + 2))) := by
  have h : Buildable c := ⟨hc.complemented, ho⟩
  constructor
  · intro hreg
    obtain ⟨r, d, hok, -⟩ := succeeds_add h hwidth hreg
    exact (spends_add (S := ∅) a b).adds h (by simp) ⟨r, d, hok⟩
  · intro hi
    obtain ⟨hnegate, hsub, hequal, hrest⟩ := adds_of_inputs h hwidth hi
    refine ⟨hnegate, hsub, hequal, fun hone => ?_, fun htwo => ?_⟩
    · have hcosts := hrest (Nat.le_of_eq hone.symm)
      rwa [hone] at hcosts
    · have hcosts := hrest (Nat.le_of_lt htwo)
      have horEqual : 6 * a.width - 5 + 3 * a.width + 1 = 9 * a.width - 4 := by omega
      rwa [lessCost_of_two_le htwo, divCost_of_two_le htwo, horEqual] at hcosts

/-- Two inputs of which one was inverted before, as a word of two bits and in the opposite order. -/
theorem adds_by_width_inverted :
    ∃ c, Reachable c ∧ c.complement? 0 = some 2 ∧ Adds c (add ⟨[0, 2]⟩ ⟨[1, 1]⟩) 10 ∧
      Adds c (negate ⟨[0, 1]⟩) 10 ∧ Adds c (less ⟨[0, 1]⟩ ⟨[1, 0]⟩) 7 ∧
      Adds c (Word.div ⟨[0, 1]⟩ ⟨[1, 0]⟩) 134 := by
  have hinputs := Reachable.empty.operated (.build (.issueInputs 2)) rfl
  obtain ⟨c, hc, ho, hm, hreg, hi⟩ : ∃ c, Reachable c ∧ c.origin = .synthesis ∧
      c.complement? 0 = some 2 ∧ (∀ w ∈ [0, 2] ++ [1, 1], c.wires.contains w = true) ∧
      ∀ w ∈ [0, 1] ++ [1, 0], c.isInput w = true :=
    ⟨_, hinputs.operated (.build (.invert 0)) rfl, rfl, rfl, by decide, by decide⟩
  have hbuilt : c.origin ≠ .netlist := by simp [ho]
  obtain ⟨hadd, -⟩ := adds_by_width (a := ⟨[0, 2]⟩) (b := ⟨[1, 1]⟩) hc hbuilt rfl
  obtain ⟨-, hcosts⟩ := adds_by_width (a := ⟨[0, 1]⟩) (b := ⟨[1, 0]⟩) hc hbuilt rfl
  obtain ⟨hnegate, -, -, -, htwo⟩ := hcosts hi
  obtain ⟨hless, -, -, -, hdiv⟩ := htwo (by decide)
  exact ⟨c, hc, hm, hadd hreg, hnegate, hless, hdiv⟩

end Word

end GateNet
