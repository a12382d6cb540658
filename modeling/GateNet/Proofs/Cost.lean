import Mathlib.Data.Finset.Card
import GateNet.Proofs.Wiring

/-!
What steps of building cost. A gate output owes a gate until it has a complement: when it is inverted for
the first time its gate is built once more, and never again. So for wires of a set, the gates that there
are and those that are owed make up a number that inverting one of the wires leaves as it is, and that
every other gate raises by one. By this number the cost of a step follows how the step is put together,
whatever complements there are.
-/

namespace GateNet

open Relation

namespace Circuit

variable {c d : Circuit} {w n : Nat} {S : Finset Nat} {ws : List Nat}

/-! ### Gates that are owed -/

/-- The wire is a gate output without a complement. -/
def owes (c : Circuit) (w : Nat) : Bool := c.isGateOutput w && (c.complement? w).isNone

/-- The number of gates that inverting the wires of the set will build. -/
def owed (c : Circuit) (S : Finset Nat) : Nat := (S.filter fun w => c.owes w = true).card

theorem owes_of_complement (h : c.complement? w = some n) : c.owes w = false := by
  rw [owes, h, Option.isNone_some, Bool.and_false]

theorem owes_of_not_driven (h : c.isGateOutput w = false) : c.owes w = false := by
  rw [owes, h, Bool.false_and]

theorem registered_of_owes (h : WellFormed c) (hw : c.owes w = true) :
    c.wires.contains w = true :=
  h.registered_of_driven (Bool.and_eq_true_iff.mp hw).1

theorem owed_congr (h : ∀ w ∈ S, d.owes w = c.owes w) : d.owed S = c.owed S := by
  rw [owed, owed, Finset.filter_congr fun w hw => by rw [h w hw]]

theorem owed_eq_zero (h : ∀ w ∈ S, c.owes w = false) : c.owed S = 0 := by
  rw [owed, Finset.filter_false_of_mem fun w hw => by simp [h w hw], Finset.card_empty]

/-- Wires that owe nothing add nothing. -/
theorem owed_union_paid (h : ∀ w ∈ ws, c.owes w = false) :
    c.owed (ws.toFinset ∪ S) = c.owed S := by
  have hnone : ws.toFinset.filter (fun w => c.owes w = true) = ∅ :=
    Finset.filter_false_of_mem fun w hw => by simp [h w (List.mem_toFinset.mp hw)]
  rw [owed, Finset.filter_union, hnone, Finset.empty_union, owed]

/-- Other wires that owe a gate each add as many. -/
theorem owed_union_lent (hn : ws.Nodup) (hS : ∀ w ∈ ws, w ∉ S) (h : ∀ w ∈ ws, c.owes w = true) :
    c.owed (ws.toFinset ∪ S) = c.owed S + ws.length := by
  have hall : ws.toFinset.filter (fun w => c.owes w = true) = ws.toFinset :=
    Finset.filter_true_of_mem fun w hw => h w (List.mem_toFinset.mp hw)
  have hdisjoint : Disjoint ws.toFinset (S.filter fun w => c.owes w = true) :=
    Finset.disjoint_left.mpr fun w hw hmem =>
      hS w (List.mem_toFinset.mp hw) (Finset.mem_of_mem_filter w hmem)
  rw [owed, Finset.filter_union, hall, Finset.card_union_of_disjoint hdisjoint,
    List.toFinset_card_of_nodup hn, owed, Nat.add_comm]

theorem registered_union (hws : ∀ w ∈ ws, c.wires.contains w = true)
    (hS : ∀ w ∈ S, c.wires.contains w = true) :
    ∀ w ∈ ws.toFinset ∪ S, c.wires.contains w = true := fun w hw =>
  (Finset.mem_union.mp hw).elim (fun hw => hws w (List.mem_toFinset.mp hw)) (hS w)

/-! ### What building does to them -/

/-- The wire is registered, and owes nothing. -/
structure Paid (c : Circuit) (w : Nat) : Prop where
  registered : c.wires.contains w = true
  owes : c.owes w = false

/-- A wire that owes nothing never will. -/
theorem Paid.remains (hw : Paid c w) (h : Remains c d) : Paid d w where
  registered := h.contains hw.registered
  owes := by
    cases hm : c.complement? w with
    | some n => exact owes_of_complement (h.complement? w n hm)
    | none =>
      have hg : c.isGateOutput w = false := by simpa [Circuit.owes, hm] using hw.owes
      exact owes_of_not_driven ((h.isGateOutput hw.registered).trans hg)

/-- What is not registered was not registered before. -/
theorem Keeps.unregistered (h : Keeps c d) (hw : d.wires.contains w = false) :
    c.wires.contains w = false := by
  cases hc : c.wires.contains w with
  | false => rfl
  | true => exact (h.contains hc).symm.trans hw

theorem Keeps.owes (h : Keeps c d) (hw : c.wires.contains w = true)
    (hm : d.complement? w = c.complement? w) : d.owes w = c.owes w := by
  rw [Circuit.owes, Circuit.owes, h.isGateOutput hw, hm]

/-- Issuing a wire leaves the others as they are. -/
theorem Growth.owed (step : Growth c d) (hS : ∀ w ∈ S, c.wires.contains w = true)
    (hm : d.complements = c.complements) : d.owed S = c.owed S :=
  owed_congr fun w hw => step.keeps.owes (hS w hw) (complement?_congr hm w)

theorem numGates_file {g : Gate} (free : c.isGateOutput g.out = false) :
    (c.file g).numGates = c.numGates + 1 := by
  have hnew : g.out ∉ c.gates := by
    rw [Std.ExtTreeMap.mem_iff_contains]
    exact ne_true_of_eq_false free
  exact (Std.ExtTreeMap.size_insert ..).trans (if_neg hnew)

theorem owed_erase (hw : w ∈ S) : c.owed S = c.owed (S.erase w) + (c.owes w).toNat := by
  have hsplit : [w].toFinset ∪ S.erase w = S := by simp [Finset.insert_erase hw]
  cases ho : c.owes w with
  | false =>
    have hpaid : c.owed ([w].toFinset ∪ S.erase w) = c.owed (S.erase w) :=
      owed_union_paid (by simpa using ho)
    rwa [hsplit] at hpaid
  | true =>
    have hlent : c.owed ([w].toFinset ∪ S.erase w) = c.owed (S.erase w) + [w].length :=
      owed_union_lent (List.nodup_singleton w) (by simp) (by simpa using ho)
    rwa [hsplit] at hlent

/-- Inverting a wire builds the gate that the wire owes, if it owes one. -/
theorem invert_numGates (h : WellFormed c) (hok : Build.invert w c = .ok (n, d)) :
    d.numGates = c.numGates + (c.owes w).toNat := by
  rcases Build.invert_ok_iff.mp hok with ⟨hm, rfl⟩ | ⟨memo, can, -, cell, hc, hcase⟩
  · rw [owes_of_complement hm]
    rfl
  rcases hcase with ⟨hi, rfl⟩ | ⟨-, g, hg, free, rfl⟩ | ⟨-, hg, bit, -, rfl⟩
  · rw [owes_of_not_driven (h.input_undriven w hi)]
    rfl
  · have howes : c.owes w = true := by rw [owes, isGateOutput_eq, hg, memo]; rfl
    rw [howes]
    exact numGates_file (c := c.issue (!cell.polarity.inverted) cell.value) free
  · have hg : c.isGateOutput w = false := by rw [isGateOutput_eq, hg]; rfl
    rw [owes_of_not_driven hg]
    rfl

/-- It owes none then. -/
theorem invert_owes (hok : Build.invert w c = .ok (n, d)) : d.owes w = false := by
  rcases Build.invert_ok_iff.mp hok with ⟨hm, rfl⟩ | ⟨-, can, -, cell, hc, hcase⟩
  · exact owes_of_complement hm
  have hnext := can.ne (WireStore.contains_iff.mpr ⟨cell, hc⟩)
  have hpaired : ∀ e : Circuit, (e.pairUp w c.nextWire).complement? w = some c.nextWire := fun e =>
    (complement?_pairUp ..).trans ((if_neg hnext).trans (if_pos rfl))
  rcases hcase with ⟨-, rfl⟩ | ⟨-, g, -, -, rfl⟩ | ⟨-, hg, bit, -, rfl⟩
  · exact owes_of_complement (hpaired _)
  · exact owes_of_complement (hpaired _)
  · have hg : (c.issue false (some !bit)).isGateOutput w = false := by
      rw [isGateOutput_eq]
      exact Option.isSome_eq_false_iff.mpr (by rw [Option.isNone_iff_eq_none]; exact hg)
    exact owes_of_not_driven hg

/-- What other wires owe does not change. -/
theorem invert_owes_of_ne {u : Nat} (h : Buildable c) (hok : Build.invert w c = .ok (n, d))
    (hu : c.wires.contains u = true) (hne : w ≠ u) : d.owes u = c.owes u := by
  refine ((Build.Assembled.invert w).built h hok).2.toKeeps.owes hu ?_
  rcases Build.invert_ok_iff.mp hok with ⟨-, rfl⟩ | ⟨-, can, -, cell, -, hcase⟩
  · rfl
  rcases hcase with ⟨-, rfl⟩ | ⟨-, g, -, -, rfl⟩ | ⟨-, -, bit, -, rfl⟩
  · exact (complement?_pairUp ..).trans ((if_neg (can.ne hu)).trans (if_neg hne))
  · exact (complement?_pairUp ..).trans ((if_neg (can.ne hu)).trans (if_neg hne))
  · rfl

/-- So the gates that there are and those that are owed stay as many. -/
theorem Buildable.invert_owed (h : Buildable c) (hS : ∀ w ∈ S, c.wires.contains w = true)
    (hw : w ∈ S) (hok : Build.invert w c = .ok (n, d)) :
    d.numGates + d.owed S = c.numGates + c.owed S := by
  have hrest : d.owed (S.erase w) = c.owed (S.erase w) := owed_congr fun u hu => by
    obtain ⟨hne, hu⟩ := Finset.mem_erase.mp hu
    exact invert_owes_of_ne h hok (hS u hu) (Ne.symm hne)
  rw [owed_erase hw, owed_erase (c := c) hw, hrest, invert_numGates h.toWellFormed hok,
    invert_owes hok]
  simp only [Bool.toNat_false]
  omega

end Circuit

namespace Build

open Circuit hiding value

variable {α β : Type} {S : Finset Nat} {j k : Nat} {m : Build α} {f : α → Build β} {P : α → Prop}
  {Q : β → Prop} {w : Nat}

/-! ### Results -/

/-- The step only grows a circuit, and its result is as stated. -/
structure Yields (m : Build α) (post : α → Prop) : Prop where
  growth : ∀ {c a d}, m c = .ok (a, d) → ReflTransGen Growth c d
  result : ∀ {c a d}, m c = .ok (a, d) → post a

theorem Assembled.yields (h : Assembled m) : Yields m fun _ => True where
  growth := h.grows.growth
  result _ := trivial

namespace Yields

theorem built {c d : Circuit} {a : α} (hm : Yields m P) (h : Buildable c)
    (hok : m c = .ok (a, d)) : Buildable d ∧ Remains c d :=
  h.grown (hm.growth hok)

theorem bind (hm : Yields m P) (hf : ∀ a, P a → Yields (f a) Q) : Yields (m >>= f) Q where
  growth hok := by
    obtain ⟨a, d, hmok, hfok⟩ := bind_ok_iff.mp hok
    exact (hm.growth hmok).trans ((hf a (hm.result hmok)).growth hfok)
  result hok := by
    obtain ⟨a, d, hmok, hfok⟩ := bind_ok_iff.mp hok
    exact (hf a (hm.result hmok)).result hfok

end Yields

/-! ### Costs -/

/-- Apart from gates that wires of the set owe, the step adds so many gates, and its result is as
stated. -/
structure Spends (S : Finset Nat) (k : Nat) (m : Build α) (post : α → Prop) : Prop
    extends Yields m post where
  spent : ∀ {c a d}, Buildable c → (∀ w ∈ S, c.wires.contains w = true) → m c = .ok (a, d) →
    d.numGates + d.owed S = c.numGates + c.owed S + k

/-- The wires of the result are new, no two are the same, and each owes a gate. -/
structure Lends (S : Finset Nat) (m : Build α) (wires : α → List Nat) : Prop where
  lent : ∀ {c a d}, Buildable c → (∀ w ∈ S, c.wires.contains w = true) → m c = .ok (a, d) →
    (wires a).Nodup ∧ ∀ w ∈ wires a, c.wires.contains w = false ∧ d.owes w = true

/-- After the step the wire owes nothing. -/
structure Pays (w : Nat) (m : Build α) : Prop where
  paid : ∀ {c a d}, Buildable c → c.wires.contains w = true → m c = .ok (a, d) → Paid d w

namespace Spends

theorem cost (hm : Spends S j m P) (hk : j = k) : Spends S k m P := hk ▸ hm

theorem imp {Q : α → Prop} (hm : Spends S k m P) (h : ∀ a, P a → Q a) : Spends S k m Q where
  growth := hm.growth
  result hok := h _ (hm.result hok)
  spent := hm.spent

/-- A step that changes nothing costs nothing. -/
theorem still (h : ∀ {c a d}, m c = .ok (a, d) → d = c ∧ P a) : Spends S 0 m P where
  growth hok := by
    obtain ⟨rfl, -⟩ := h hok
    exact .refl
  result hok := (h hok).2
  spent _ _ hok := by
    obtain ⟨rfl, -⟩ := h hok
    rfl

theorem pure {a : α} (ha : P a) : Spends S 0 (Pure.pure a) P :=
  still fun hok => by
    obtain ⟨rfl, rfl⟩ := pure_ok_iff.mp hok
    exact ⟨rfl, ha⟩

theorem fault {e : Fault} : Spends S k (throw e) P where
  growth hok := (throw_ok_iff.mp hok).elim
  result hok := (throw_ok_iff.mp hok).elim
  spent _ _ hok := (throw_ok_iff.mp hok).elim

theorem bind (hm : Spends S j m P) (hf : ∀ a, P a → Spends S k (f a) Q) :
    Spends S (j + k) (m >>= f) Q where
  toYields := hm.toYields.bind fun a ha => (hf a ha).toYields
  spent hc hS hok := by
    obtain ⟨a, d, hmok, hfok⟩ := bind_ok_iff.mp hok
    obtain ⟨hd, hremains⟩ := hm.built hc hmok
    have hfirst := hm.spent hc hS hmok
    have hrest := (hf a (hm.result hmok)).spent hd (fun w hw => hremains.contains (hS w hw)) hfok
    omega

/-- A first step at no cost. -/
theorem free (hm : Spends S 0 m P) (hf : ∀ a, P a → Spends S k (f a) Q) :
    Spends S k (m >>= f) Q :=
  (hm.bind hf).cost (Nat.zero_add k)

theorem gate {function : GateFunction} {a b : Nat} :
    Spends S 1 (addGate function a b) fun _ => True where
  toYields := (Assembled.gate function a b).yields
  spent {c _ _} _ hS hok := by
    obtain ⟨can, ha, hb, free, rfl, rfl⟩ := addGate_ok_iff.mp hok
    have hgates : (c.withGate function a b).numGates = c.numGates + 1 :=
      numGates_file (c := c.issue false none) free
    rw [hgates, (Growth.gate function can ha hb free).owed hS rfl]
    omega

theorem wire {value : Option Bool} : Spends S 0 (freshWire false value) fun _ => True where
  toYields := (Assembled.wire value).yields
  spent _ hS hok := by
    obtain ⟨can, rfl, rfl⟩ := freshWire_ok_iff.mp hok
    rw [(Growth.wire value can).owed hS rfl]
    rfl

/-- The complement of a wire of the set is paid for already. -/
theorem invert (hw : w ∈ S) : Spends S 0 (Build.invert w) fun _ => True where
  toYields := (Assembled.invert w).yields
  spent hc hS hok := hc.invert_owed hS hw hok

theorem mapM {f : β → Build Nat} {l : List β} (hf : ∀ b ∈ l, Spends S k (f b) fun _ => True) :
    Spends S (l.length * k) (l.mapM f) fun ws => ws.length = l.length := by
  induction l with
  | nil =>
    rw [List.mapM_nil]
    exact .cost (.pure rfl) (Nat.zero_mul k).symm
  | cons b rest ih =>
    rw [List.mapM_cons, List.length_cons]
    refine .cost (.bind (hf b (List.mem_cons_self ..)) fun w _ => .bind
      (ih fun b hb => hf b (List.mem_cons_of_mem _ hb)) fun ws hws => .pure (by simp [hws])) ?_
    rw [Nat.add_zero, Nat.add_one_mul, Nat.add_comm]

/-- The wires of a first result may be inverted later on: each costs the gate that it owes. -/
theorem adopt {wires : α → List Nat} {n : Nat} (hm : Spends S j m P) (hl : Lends S m wires)
    (hn : ∀ a, P a → (wires a).length = n) (hp : ∀ a, P a → ∀ w ∈ wires a, Pays w (f a))
    (hf : ∀ a, P a → Spends ((wires a).toFinset ∪ S) k (f a) Q) :
    Spends S (j + n + k) (m >>= f) Q where
  toYields := hm.toYields.bind fun a ha => (hf a ha).toYields
  spent hc hS hok := by
    obtain ⟨a, d, hmok, hfok⟩ := bind_ok_iff.mp hok
    have ha := hm.result hmok
    obtain ⟨hd, hremains⟩ := hm.built hc hmok
    obtain ⟨hnodup, hlent⟩ := hl.lent hc hS hmok
    have hreg : ∀ w ∈ wires a, d.wires.contains w = true := fun w hw =>
      registered_of_owes hd.toWellFormed (hlent w hw).2
    -- the set is registered before the step, and what the step lends is not
    have hnew : ∀ w ∈ wires a, w ∉ S := fun w hw hmem => by
      have hold := hS w hmem
      rw [(hlent w hw).1] at hold
      cases hold
    have hfirst := hm.spent hc hS hmok
    have hrest := (hf a ha).spent hd
      (registered_union hreg fun w hw => hremains.contains (hS w hw)) hfok
    rw [owed_union_lent hnodup hnew fun w hw => (hlent w hw).2, hn a ha,
      owed_union_paid fun w hw => ((hp a ha w hw).paid hd (hreg w hw) hfok).owes] at hrest
    omega

/-- The wires of a first result that owe nothing may be inverted later on at no cost. -/
theorem reuse {wires : α → List Nat} (hm : Spends S j m P)
    (hp : ∀ {c a d}, Buildable c → m c = .ok (a, d) → ∀ w ∈ wires a, Paid d w)
    (hf : ∀ a, P a → Spends ((wires a).toFinset ∪ S) k (f a) Q) :
    Spends S (j + k) (m >>= f) Q where
  toYields := hm.toYields.bind fun a ha => (hf a ha).toYields
  spent hc hS hok := by
    obtain ⟨a, d, hmok, hfok⟩ := bind_ok_iff.mp hok
    have ha := hm.result hmok
    obtain ⟨hd, hremains⟩ := hm.built hc hmok
    obtain ⟨-, hremains'⟩ := (hf a ha).built hd hfok
    have hpaid := hp hc hmok
    have hfirst := hm.spent hc hS hmok
    have hrest := (hf a ha).spent hd (registered_union (fun w hw => (hpaid w hw).registered)
      fun w hw => hremains.contains (hS w hw)) hfok
    rw [owed_union_paid fun w hw => (hpaid w hw).owes,
      owed_union_paid fun w hw => ((hpaid w hw).remains hremains').owes] at hrest
    omega

/-- A step that costs the same whether the wire is in the set or not leaves what the wire owes. -/
theorem owes_eq {c d : Circuit} {a : α} (h : Spends S k m P) (h' : Spends (insert w S) k m P)
    (hw : w ∉ S) (hc : Buildable c) (hS : ∀ u ∈ insert w S, c.wires.contains u = true)
    (hok : m c = .ok (a, d)) : d.owes w = c.owes w := by
  have hwithout := h.spent hc (fun u hu => hS u (Finset.mem_insert_of_mem hu)) hok
  have hwith := h'.spent hc hS hok
  rw [owed_erase (Finset.mem_insert_self w S), owed_erase (c := c) (Finset.mem_insert_self w S),
    Finset.erase_insert hw] at hwith
  have hsame : (d.owes w).toNat = (c.owes w).toNat := by omega
  revert hsame
  cases d.owes w <;> cases c.owes w <;> simp

end Spends

/-! ### Wires that are lent and paid for -/

namespace Lends

variable {wires : β → List Nat}

theorem gate {function : GateFunction} {a b : Nat} :
    Lends S (addGate function a b) fun w => [w] where
  lent {c _ _} hc _ hok := by
    obtain ⟨can, ha, hb, free, rfl, rfl⟩ := addGate_ok_iff.mp hok
    refine ⟨List.nodup_singleton _, fun w hw => ?_⟩
    obtain rfl := List.mem_singleton.mp hw
    have hdriven : (c.withGate function a b).isGateOutput c.nextWire = true :=
      (isGateOutput_file ..).mpr (.inl rfl)
    -- what has a complement is registered
    have hnone : (c.withGate function a b).complement? c.nextWire = none :=
      Option.eq_none_iff_forall_ne_some.mpr fun n hm => by
        have hreg := (hc.toComplemented.registered (w := c.nextWire) (v := n) hm).1
        rw [can.unused] at hreg
        cases hreg
    exact ⟨can.unused, by rw [owes, hdriven, hnone]; rfl⟩

/-- What is built before makes no difference. -/
theorem after (hm : Yields m P) (hf : ∀ a, P a → Lends S (f a) wires) : Lends S (m >>= f) wires where
  lent hc hS hok := by
    obtain ⟨a, d, hmok, hfok⟩ := bind_ok_iff.mp hok
    obtain ⟨hd, hremains⟩ := hm.built hc hmok
    obtain ⟨hnodup, hlent⟩ :=
      (hf a (hm.result hmok)).lent hd (fun w hw => hremains.contains (hS w hw)) hfok
    exact ⟨hnodup, fun w hw => ⟨hremains.unregistered (hlent w hw).1, (hlent w hw).2⟩⟩

/-- A result in another form has the wires that it had. -/
theorem map {wires' : α → List Nat} {g : α → β} (hm : Lends S m wires')
    (hwires : ∀ a, wires (g a) = wires' a) : Lends S (m >>= fun a => pure (g a)) wires where
  lent hc hS hok := by
    obtain ⟨a, d, hmok, hok⟩ := bind_ok_iff.mp hok
    obtain ⟨rfl, rfl⟩ := pure_ok_iff.mp hok
    rw [hwires]
    exact hm.lent hc hS hmok

end Lends

namespace Pays

theorem invert : Pays w (Build.invert w) where
  paid hc hw hok := ⟨((Assembled.invert w).built hc hok).2.contains hw, invert_owes hok⟩

/-- What is paid for stays so. -/
theorem first (hp : Pays w m) (hm : Yields m P) (hf : ∀ a, P a → Yields (f a) Q) :
    Pays w (m >>= f) where
  paid hc hw hok := by
    obtain ⟨a, d, hmok, hfok⟩ := bind_ok_iff.mp hok
    obtain ⟨hd, -⟩ := hm.built hc hmok
    exact (hp.paid hc hw hmok).remains ((hf a (hm.result hmok)).built hd hfok).2

theorem after (hm : Yields m P) (hf : ∀ a, P a → Pays w (f a)) : Pays w (m >>= f) where
  paid hc hw hok := by
    obtain ⟨a, d, hmok, hfok⟩ := bind_ok_iff.mp hok
    obtain ⟨hd, hremains⟩ := hm.built hc hmok
    exact (hf a (hm.result hmok)).paid hd (hremains.contains hw) hfok

end Pays

/-! ### Numbers of gates -/

/-- The step succeeds, and adds so many gates. -/
def Adds (c : Circuit) (m : Build α) (k : Nat) : Prop :=
  ∃ a d, m c = .ok (a, d) ∧ d.numGates = c.numGates + k

/-- Inputs owe nothing, before and after. -/
theorem Spends.adds {c : Circuit} (hm : Spends S k m P) (h : Buildable c)
    (hS : ∀ w ∈ S, c.isInput w = true) (hok : ∃ a d, m c = .ok (a, d)) : Adds c m k := by
  obtain ⟨a, d, hok⟩ := hok
  obtain ⟨hd, hremains⟩ := hm.built h hok
  have hreg : ∀ w ∈ S, c.wires.contains w = true := fun w hw => h.input_registered w (hS w hw)
  have hbefore : c.owed S = 0 := owed_eq_zero fun w hw =>
    owes_of_not_driven (h.input_undriven w (hS w hw))
  have hafter : d.owed S = 0 := owed_eq_zero fun w hw => owes_of_not_driven
    (hd.input_undriven w ((hremains.isInput w (hreg w hw)).trans (hS w hw)))
  have hspent := hm.spent h hreg hok
  rw [hbefore, hafter] at hspent
  exact ⟨a, d, hok, hspent⟩

end Build

end GateNet
