import GateNet.Proofs.Netlist.RoundTrip
import GateNet.Proofs.Supply

/-!
The value file of a circuit that is built up and supplied through its inputs. It has a line for each
known wire that no gate drives. The line of an input gives the value that the input has, and that of its
complement the opposite of the value that the input had when the complement was last set: when it was
built, or at the last execution since. So the two lines contradict each other exactly as long as an
input was given another value and the circuit was not executed.
-/

namespace GateNet

open Relation

namespace Text

theorem digits_injective {m n : Nat} (h : digits m = digits n) : m = n := by
  have value : ∀ k, Nat.ofDigitChars 10 (digits k) 0 = k := fun k =>
    Nat.ofDigitChars_toDigits (by decide) (by decide)
  rw [← value m, h, value n]

end Text

namespace Values

variable {c : Circuit} {w v : Nat} {x y : Bool}

theorem lineText_injective (h : (lineText w x).toList = (lineText v y).toList) : w = v ∧ x = y := by
  have hwords := congrArg Text.words h
  rw [lineText_toList, lineText_toList,
    Text.words_spaced fun t ht => (lineText_clean w x t ht).isWord,
    Text.words_spaced fun t ht => (lineText_clean v y t ht).isWord] at hwords
  simp only [List.cons.injEq, and_true] at hwords
  obtain ⟨hindex, hbit⟩ := hwords
  constructor
  · have hindex := Text.digits_injective hindex
    simp only [Literal.index, Bool.toNat_false] at hindex
    omega
  · have hbit := congrArg Token.bit hbit
    rw [Token.bit_bitChars, Token.bit_bitChars] at hbit
    exact Except.ok.inj hbit

/-- The value file has the line that gives the wire this value. -/
def HasLine (c : Circuit) (w : Nat) (x : Bool) : Prop :=
  (lineText w x).toList ∈ Text.lines (render c).toList

/-- The file has a line for each wire that is known and not driven, with its value, and no other. -/
theorem hasLine_iff : HasLine c w x ↔ c.wires.raw? w = some x ∧ c.isGateOutput w = false := by
  rw [HasLine, lines_render, List.mem_map, ← mem_assignments]
  constructor
  · rintro ⟨⟨v, y⟩, hp, he⟩
    obtain ⟨rfl, rfl⟩ := lineText_injective he
    exact hp
  · exact fun hp => ⟨(w, x), hp, rfl⟩

end Values

namespace Circuit

open Values

variable {c d : Circuit} {w v : Nat} {x : Option Bool}

/-- The value that a wire had when its complement was last set: when the complement was built, or since
then at the last execution. -/
inductive LastSet (w : Nat) : Option Bool → Circuit → Prop
  | built {c d : Circuit} : Supplied c → c.complement? w = none → Supplies c d →
      d.complement? w ≠ none → LastSet w (d.wires.raw? w) d
  | executed {c : Circuit} : Supplied c → c.complement? w ≠ none →
      LastSet w (c.wires.raw? w) c.execute.state
  | supplied {x : Option Bool} {c d : Circuit} : LastSet w x c → Supplies c d → LastSet w x d

/-- Wherever a complement was set, it is remembered. -/
theorem LastSet.remembered (h : LastSet w x c) : Supplied c ∧ c.complement? w ≠ none := by
  induction h with
  | built hs _ step hm => exact ⟨hs.supplies step, hm⟩
  | executed hs hm => exact ⟨hs.tail .executed, hm⟩
  | supplied _ step ih =>
    obtain ⟨hs, hm⟩ := ih
    obtain ⟨v, hv⟩ := Option.ne_none_iff_exists'.mp hm
    have hkept := (hs.steady.operated (Proceeds.supplied step).operated).2 w v hv
    exact ⟨hs.supplies step, by simp [hkept]⟩

/-- Every complement that is remembered was set. -/
theorem Supplied.lastSet (h : Supplied c) (hm : c.complement? w ≠ none) : ∃ x, LastSet w x c := by
  induction h with
  | refl => simp [complement?] at hm
  | @tail e d hs step ih =>
    cases step with
    | executed => exact ⟨_, .executed hs hm⟩
    | supplied step =>
      by_cases hold : e.complement? w = none
      · exact ⟨_, .built hs hold step hm⟩
      · obtain ⟨x, hx⟩ := ih hold
        exact ⟨x, .supplied hx step⟩

/-- The complement of an input holds the opposite of what the input was when it was last set. -/
theorem LastSet.raw? (h : LastSet w x c) (hp : (w, v) ∈ c.inputComplements) :
    c.wires.raw? v = x.map (!·) := by
  induction h with
  | @built c d hs hm step _ =>
    rcases (Proceeds.supplied step).operated.pairs hs.steady.toComplemented _ hp with hold | hstep
    · rw [hs.steady.remembered _ hold] at hm
      cases hm
    · exact hstep
  | executed hs _ =>
    have hstep := hs.steady.execute_inStep hp
    rwa [InStep, hs.steady.raw?_execute_input (hs.steady.complement_of_input _ hp)] at hstep
  | @supplied x c d hset step ih =>
    obtain ⟨hs, hm⟩ := hset.remembered
    obtain ⟨u, hu⟩ := Option.ne_none_iff_exists'.mp hm
    have hop := (Proceeds.supplied step).operated
    obtain ⟨hd, hkept⟩ := hs.steady.operated hop
    -- the complement is the one of before, so it was registered before the step
    have hsame : u = v := Option.some.inj ((hkept w u hu).symm.trans (hd.remembered _ hp))
    have hreg : c.wires.contains v = true := hsame ▸ (hs.steady.registered hu).2
    have hpair : (w, v) ∈ c.inputComplements := (hop.keeps.recorded (w, v) hreg).mp hp
    obtain ⟨-, -, -, hraw⟩ := step
    rw [hraw v hreg (hs.steady.complement_undriven _ hpair).1, ih hpair]

/-- The line for the complement of an input gives the opposite of the value that the input had when the
complement was last set, and there is none if the input had none. So as long as the input has this
value, each of the two lines is there exactly if the other is, with the opposite bit. -/
theorem complement_line_last_set (hs : Supplied c) (hp : (w, v) ∈ c.inputComplements) :
    (∃ x, LastSet w x c) ∧ ∀ x, LastSet w x c →
      (∀ bit, HasLine c v bit ↔ x = some !bit) ∧
        (c.wires.raw? w = x → ∀ bit, HasLine c w bit ↔ HasLine c v !bit) := by
  have h := hs.steady
  have hw := h.input_undriven w (h.complement_of_input _ hp)
  have hv := (h.complement_undriven _ hp).2
  refine ⟨hs.lastSet (by simp [h.remembered _ hp]), fun x hx => ?_⟩
  have hline : ∀ bit, HasLine c v bit ↔ x = some !bit := by
    intro bit
    rw [hasLine_iff, hx.raw? hp, and_iff_left hv]
    cases x <;> simp [Bool.not_eq_eq_eq_not]
  refine ⟨hline, fun hsame bit => ?_⟩
  rw [hasLine_iff, hline, hsame, Bool.not_not, and_iff_left hw]

/-- An input that was inverted and then given another value. -/
theorem exists_reassigned : ∃ c, Supplied c ∧ (0, 1) ∈ c.inputComplements ∧
    c.wires.raw? 0 = some false ∧ c.wires.raw? 1 = some false ∧ c.isGateOutput 0 = false := by
  have hinput := Supplied.empty.supplies (supplies_build .issueInput rfl)
  have htrue := hinput.supplies
    (supplies_of_assigns (.assign 0 true) nofun rfl fun w hw _ => by cases hw; rfl)
  have hinvert := htrue.supplies (supplies_build (.invert 0) rfl)
  have hfalse := hinvert.supplies
    (supplies_of_assigns (.assign 0 false) nofun rfl fun w hw _ => by cases hw; rfl)
  exact ⟨_, hfalse, List.mem_cons_self .., rfl, rfl, rfl⟩

/-- Once it is executed, the value file has opposite bits for the two. -/
theorem complement_line_last_set_executed :
    ∃ c, Supplied c ∧ (0, 1) ∈ c.inputComplements ∧ LastSet 0 (some false) c ∧
      HasLine c 0 false ∧ HasLine c 1 true := by
  obtain ⟨c, hs, hp, hw, -, hg⟩ := exists_reassigned
  have hset : LastSet 0 (some false) c.execute.state :=
    hw ▸ .executed hs (by simp [hs.steady.remembered _ hp])
  have hs' : Supplied c.execute.state := hs.tail .executed
  have hraw := hs.steady.raw?_execute_input (hs.steady.complement_of_input _ hp)
  obtain ⟨-, hall⟩ := complement_line_last_set hs' hp
  obtain ⟨hline, hsame⟩ := hall _ hset
  have hv : HasLine c.execute.state 1 true := (hline true).mpr rfl
  exact ⟨_, hs', hp, hset, (hsame (hraw.trans hw) false).mpr hv, hv⟩

/-- Until then it has the same bit for both. -/
theorem complement_line_stale :
    ¬ ∀ c, Supplied c → ∀ p ∈ c.inputComplements, ∀ bit, HasLine c p.1 bit → HasLine c p.2 !bit := by
  intro h
  obtain ⟨c, hs, hp, hw, hv, hg⟩ := exists_reassigned
  have hline := hasLine_iff.mp (h c hs (0, 1) hp false (hasLine_iff.mpr ⟨hw, hg⟩))
  rw [hv] at hline
  cases hline.1

end Circuit

end GateNet
