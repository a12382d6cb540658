import GateNet.Proofs.Later

/-!
How gadgets are wired, whatever the values are. Two judgements on steps of building follow how the steps
are put together. A step settles wires if those of its result are gate outputs or constants; and it
consults a wire if it leaves a gate that reads the wire or its complement. So the results of gadgets have
values after every execution that succeeds, and so do their operands.
-/

namespace GateNet

open Relation

namespace Circuit

variable {c d : Circuit} {w n : Nat}

theorem Buildable.grown (h : Buildable c) (hd : ReflTransGen Growth c d) :
    Buildable d ∧ Remains c d := by
  induction hd with
  | refl => exact ⟨h, .refl c⟩
  | tail _ step ih => exact ⟨ih.1.growth step, ih.2.trans (step.remains ih.1.toComplemented)⟩

theorem Usable.remains (hw : Usable c w) (h : WellFormed c) (hd : Remains c d) : Usable d w := by
  have hreg := hw.registered h
  rcases hw with (hi | hg | ⟨p, hp, rfl⟩) | ⟨bit, hc⟩
  · exact .inl (.inl ((hd.isInput w hreg).trans hi))
  · exact .inl (.inr (.inl ((hd.isGateOutput hreg).trans hg)))
  · exact .inl (.inr (.inr ⟨p, (hd.recorded p hreg).mpr hp, rfl⟩))
  · exact .inr ⟨bit, hd.constant w bit hc⟩

/-- The second wire is the complement of the first one, unless that is a constant. -/
def Opposes (c : Circuit) (w n : Nat) : Prop :=
  (c.complement? w = some n ∧ Usable c n) ∨ ∃ bit, Constant c w bit

theorem Opposes.remains (hw : Opposes c w n) (h : WellFormed c) (hd : Remains c d) :
    Opposes d w n := by
  rcases hw with ⟨hm, hn⟩ | ⟨bit, hc⟩
  · exact .inl ⟨hd.complement? w n hm, hn.remains h hd⟩
  · exact .inr ⟨bit, hd.constant w bit hc⟩

/-- To consult the complement of a wire is to consult the wire. -/
theorem Consulted.opposes (h : Complemented c) (hm : c.complement? w = some n)
    (hn : Consulted c n) : Consulted c w := by
  have hback := h.symm w n hm
  rcases hn with hr | ⟨u, hu, hr⟩ | ⟨bit, hc⟩
  · exact .inr (.inl ⟨n, hm, hr⟩)
  · rw [hback] at hu
    cases hu
    exact .inl hr
  · rw [hc.complement? h] at hback
    cases hback

end Circuit

namespace Build

open Circuit hiding value

variable {α β : Type} {given : List Nat} {m : Build α} {f : α → Build β} {w : Nat}

/-- What an assembled step leads to, and what is still there. -/
theorem Assembled.built {c d : Circuit} {a : α} (hm : Assembled m) (h : Buildable c)
    (hok : m c = .ok (a, d)) : Buildable d ∧ Remains c d :=
  h.grown (hm.grows.growth hok)

theorem invert_opposes {c d : Circuit} {n : Nat} (h : Buildable c) (hw : Usable c w)
    (hok : invert w c = .ok (n, d)) : Opposes d w n := by
  obtain ⟨hd, hremains⟩ := (Assembled.invert w).built h hok
  rcases hw with hi | ⟨bit, hc⟩
  · obtain ⟨n', d', hok', -, hm⟩ := h.invert_ok h.origin_ne hi
    cases hok.symm.trans hok'
    have hpaired := hd.paired w n hm
    refine .inl ⟨hm, .inl ?_⟩
    cases hpaired with
    | input f => exact .inr (.inr ⟨_, f.recorded, rfl⟩)
    | complement f => exact .inl f.input
    | gates hg hk =>
      refine .inr (.inl ?_)
      rw [isGateOutput_eq, hk]
      rfl
  · exact .inr ⟨bit, hremains.constant w bit hc⟩

/-- Among the complements of the wires of a list is one for each of them. -/
theorem inverts_opposes {c d : Circuit} {ws ns : List Nat} (h : Buildable c) (hw : Usable c w)
    (hmem : w ∈ ws) (hok : ws.mapM invert c = .ok (ns, d)) : ∃ n ∈ ns, Opposes d w n := by
  induction ws generalizing c ns with
  | nil => cases hmem
  | cons u rest ih =>
    rw [List.mapM_cons] at hok
    obtain ⟨n, c₁, hinvert, hok⟩ := bind_ok_iff.mp hok
    obtain ⟨ns, c₂, hinverts, hok⟩ := bind_ok_iff.mp hok
    obtain ⟨rfl, rfl⟩ := pure_ok_iff.mp hok
    obtain ⟨h₁, hremains⟩ := (Assembled.invert u).built h hinvert
    obtain ⟨-, hremains'⟩ := (assembled_mapM .invert rest).built h₁ hinverts
    rcases List.mem_cons.mp hmem with rfl | hmem
    · refine ⟨n, List.mem_cons_self .., ?_⟩
      exact (invert_opposes h hw hinvert).remains h₁.toWellFormed hremains'
    · obtain ⟨n', hn', hopp⟩ := ih h₁ (hw.remains h.toWellFormed hremains) hmem hinverts
      exact ⟨n', List.mem_cons_of_mem n hn', hopp⟩

/-! ### Settled results -/

/-- The wires of a result are settled, if the wires given are. -/
structure Settles (given : List Nat) (m : Build α) (wires : α → List Nat) : Prop where
  settled : ∀ {c a d}, Buildable c → (∀ w ∈ given, Settled c w) → m c = .ok (a, d) →
    ∀ w ∈ wires a, Settled d w

namespace Settles

variable {wires : β → List Nat}

theorem pure {a : β} (h : wires a ⊆ given) : Settles given (Pure.pure a) wires where
  settled _ hgiven hok w hw := by
    obtain ⟨rfl, rfl⟩ := pure_ok_iff.mp hok
    exact hgiven w (h hw)

theorem fault {e : Fault} : Settles given (throw e) wires where
  settled _ _ hok := (throw_ok_iff.mp hok).elim

/-- What a first step settles is given to the steps after it. -/
theorem bind {g : α → List Nat} (hm : Assembled m) (hg : Settles given m g)
    (hf : ∀ a, Settles (g a ++ given) (f a) wires) : Settles given (m >>= f) wires where
  settled hc hgiven hok := by
    obtain ⟨a, d, hmok, hfok⟩ := bind_ok_iff.mp hok
    obtain ⟨hd, hremains⟩ := hm.built hc hmok
    refine (hf a).settled hd (fun w hw => ?_) hfok
    rcases List.mem_append.mp hw with hw | hw
    · exact hg.settled hc hgiven hmok w hw
    · exact (hgiven w hw).remains hc.toWellFormed hremains

/-- A first step may settle nothing. -/
theorem after (hm : Assembled m) (hf : ∀ a, Settles given (f a) wires) :
    Settles given (m >>= f) wires :=
  .bind (g := fun _ => []) hm ⟨fun _ _ _ _ hw => nomatch hw⟩ hf

theorem mapM {f : β → Build Nat} (ha : ∀ b, Assembled (f b))
    (hf : ∀ b given, Settles given (f b) fun w => [w]) (l : List β) :
    Settles given (l.mapM f) id := by
  induction l generalizing given with
  | nil =>
    rw [List.mapM_nil]
    exact .pure (List.nil_subset _)
  | cons b rest ih =>
    rw [List.mapM_cons]
    refine .bind (ha b) (hf b given) fun w => ?_
    exact .bind (assembled_mapM ha rest) ih fun ws => .pure (by simp)

end Settles

theorem settles_addGate (function : GateFunction) (a b : Nat) :
    Settles given (addGate function a b) fun w => [w] where
  settled _ _ hok w hw := by
    obtain ⟨-, -, -, -, rfl, rfl⟩ := addGate_ok_iff.mp hok
    rw [List.mem_singleton.mp hw]
    exact .inl ((isGateOutput_file ..).mpr (.inl rfl))

theorem settles_constant (bit : Bool) : Settles given (constant bit) fun w => [w] where
  settled hc _ hok w hw := by
    obtain ⟨can, rfl, rfl⟩ := freshWire_ok_iff.mp hok
    rw [List.mem_singleton.mp hw]
    exact .inr ⟨bit, .issue hc.toWellFormed can bit⟩

/-! ### Consulted operands -/

/-- The step leaves the wire consulted. -/
structure Consults (w : Nat) (m : Build α) : Prop where
  consulted : ∀ {c a d}, Buildable c → Usable c w → m c = .ok (a, d) → Consulted d w

namespace Consults

theorem gate {function : GateFunction} {a b : Nat} (hw : w = a ∨ w = b) :
    Consults w (addGate function a b) where
  consulted _ _ hok := by
    obtain ⟨-, -, -, -, rfl, rfl⟩ := addGate_ok_iff.mp hok
    exact .inl ⟨_, _, (gate?_file ..).trans (if_pos rfl), hw⟩

/-- What is consulted stays so. -/
theorem first (hm : Consults w m) (ha : Assembled m) (hf : ∀ a, Assembled (f a)) :
    Consults w (m >>= f) where
  consulted hc hw hok := by
    obtain ⟨a, d, hmok, hfok⟩ := bind_ok_iff.mp hok
    obtain ⟨hd, -⟩ := ha.built hc hmok
    exact (hm.consulted hc hw hmok).remains hd.toWellFormed ((hf a).built hd hfok).2

theorem after (hm : Assembled m) (hf : ∀ a, Consults w (f a)) : Consults w (m >>= f) where
  consulted hc hw hok := by
    obtain ⟨a, d, hmok, hfok⟩ := bind_ok_iff.mp hok
    obtain ⟨hd, hremains⟩ := hm.built hc hmok
    exact (hf a).consulted hd (hw.remains hc.toWellFormed hremains) hfok

/-- To consult a wire that opposes another one is to consult that. -/
theorem of_opposes {c d : Circuit} {n : Nat} {a : α} (hm : Consults n m) (ha : Assembled m)
    (hc : Buildable c) (hw : Opposes c w n) (hok : m c = .ok (a, d)) : Consulted d w := by
  obtain ⟨hd, hremains⟩ := ha.built hc hok
  rcases hw with ⟨hm', hn⟩ | ⟨bit, hconst⟩
  · exact (hm.consulted hc hn hok).opposes hd.toComplemented (hremains.complement? w n hm')
  · exact .inr (.inr ⟨bit, hremains.constant w bit hconst⟩)

/-- The complement of a wire may be consulted in its place. -/
theorem invert {f : Nat → Build β} (ha : ∀ n, Assembled (f n)) (hf : ∀ n, Consults n (f n)) :
    Consults w (Build.invert w >>= f) where
  consulted hc hw hok := by
    obtain ⟨n, d, hinvert, hfok⟩ := bind_ok_iff.mp hok
    obtain ⟨hd, -⟩ := (Assembled.invert w).built hc hinvert
    exact (hf n).of_opposes (ha n) hd (invert_opposes hc hw hinvert) hfok

/-- So may the complements of the wires of a list. -/
theorem inverts {ws : List Nat} {f : List Nat → Build β} (ha : ∀ ns, Assembled (f ns))
    (hf : ∀ ns, ∀ n ∈ ns, Consults n (f ns)) (hw : w ∈ ws) :
    Consults w (ws.mapM Build.invert >>= f) where
  consulted hc husable hok := by
    obtain ⟨ns, d, hinverts, hfok⟩ := bind_ok_iff.mp hok
    obtain ⟨hd, -⟩ := (assembled_mapM .invert ws).built hc hinverts
    obtain ⟨n, hn, hopp⟩ := inverts_opposes hc husable hw hinverts
    exact (hf ns n hn).of_opposes (ha ns) hd hopp hfok

end Consults

end Build

end GateNet
