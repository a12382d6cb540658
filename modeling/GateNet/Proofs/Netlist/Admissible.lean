import Mathlib.Data.List.Induction
import Mathlib.Data.List.Nodup
import GateNet.Proofs.Netlist.Consistency

/-!
What follows if every statement is admissible after those before it: no wire has two drivers, or one
and an input line, and outputs are distinct, so that each has the value of its own line.
-/

namespace GateNet.Netlist

variable {ss ts : List Statement} {s : Statement} {w : Nat}

theorem admissibleAfter_append {before : List Statement} :
    AdmissibleAfter before (ss ++ ts) ↔
      AdmissibleAfter before ss ∧ AdmissibleAfter (before ++ ss) ts := by
  induction ss generalizing before with
  | nil => simp [AdmissibleAfter]
  | cons s rest ih => simp [AdmissibleAfter, ih, and_assoc]

theorem admissible_concat :
    AdmissibleAfter [] (ss ++ [s]) ↔ AdmissibleAfter [] ss ∧ Admissible ss s := by
  simp [admissibleAfter_append, AdmissibleAfter]

theorem mem_driven_declared (h : w ∈ driven ss) : w ∈ declared ss := by
  obtain ⟨g, hg, rfl⟩ := List.mem_map.mp h
  obtain ⟨s, hs, he⟩ := List.mem_filterMap.mp hg
  cases s with
  | gate f out a b => cases he; exact List.mem_map.mpr ⟨_, hs, rfl⟩
  | input l => cases he
  | output l seed => cases he

theorem mem_inputs_declared (h : w ∈ inputs ss) : w ∈ declared ss := by
  obtain ⟨s, hs, he⟩ := List.mem_filterMap.mp h
  cases s with
  | input l => cases he; exact List.mem_map.mpr ⟨_, hs, rfl⟩
  | output l seed => cases he
  | gate f out a b => cases he

theorem mem_outputs {l : Literal} : l ∈ outputs ss ↔ ∃ seed, Statement.output l seed ∈ ss := by
  rw [outputs, List.mem_filterMap]
  constructor
  · rintro ⟨s, hs, he⟩
    cases s with
    | output l' seed => cases he; exact ⟨seed, hs⟩
    | input l => cases he
    | gate f out a b => cases he
  · rintro ⟨seed, hs⟩
    exact ⟨_, hs, rfl⟩

theorem mem_outputs_declared {l : Literal} (h : l ∈ outputs ss) : l.wire ∈ declared ss := by
  obtain ⟨seed, hs⟩ := mem_outputs.mp h
  exact List.mem_map.mpr ⟨_, hs, rfl⟩

/-! ### By induction on the last statement -/

/-- Gates read wires that are declared, and not their own outputs. -/
theorem gate_reads (adm : AdmissibleAfter [] ss) {g : Gate} (h : g ∈ gates ss) :
    (g.a ∈ declared ss ∧ g.a ≠ g.out) ∧ g.b ∈ declared ss ∧ g.b ≠ g.out := by
  induction ss using List.reverseRecOn with
  | nil => cases h
  | append_singleton ss s ih =>
    obtain ⟨prior, last⟩ := admissible_concat.mp adm
    have weaken : ∀ {v}, v ∈ declared ss → v ∈ declared (ss ++ [s]) := fun hv => by
      rw [declared_concat]
      exact List.mem_append_left _ hv
    rw [gates_concat, List.mem_append, Option.mem_toList] at h
    rcases h with old | new
    · obtain ⟨⟨ha, hao⟩, hb, hbo⟩ := ih prior old
      exact ⟨⟨weaken ha, hao⟩, weaken hb, hbo⟩
    · cases s with
      | gate f out a b =>
        cases new
        obtain ⟨-, ⟨ha, hao⟩, hb, hbo⟩ := last
        exact ⟨⟨weaken ha, hao⟩, weaken hb, hbo⟩
      | input l => cases new
      | output l seed => cases new

/-- No wire has two drivers. -/
theorem driven_nodup (adm : AdmissibleAfter [] ss) : (driven ss).Nodup := by
  induction ss using List.reverseRecOn with
  | nil => exact List.nodup_nil
  | append_singleton ss s ih =>
    obtain ⟨prior, last⟩ := admissible_concat.mp adm
    cases s with
    | gate f out a b =>
      have h : driven (ss ++ [.gate f out a b]) = driven ss ++ [out] := by
        simp [driven, Statement.gate?]
      rw [h, List.nodup_append]
      refine ⟨ih prior, by simp, fun v hv w hw he => ?_⟩
      rw [List.mem_singleton] at hw
      exact last.1.1 (hw ▸ he ▸ hv)
    | input l => simpa [driven, Statement.gate?] using ih prior
    | output l seed => simpa [driven, Statement.gate?] using ih prior

/-- No gate drives an input, whichever of the two comes first. -/
theorem not_driven_of_input (adm : AdmissibleAfter [] ss) (h : w ∈ inputs ss) : w ∉ driven ss := by
  induction ss using List.reverseRecOn with
  | nil => cases h
  | append_singleton ss s ih =>
    obtain ⟨prior, last⟩ := admissible_concat.mp adm
    cases s with
    | input l =>
      have hi : w ∈ inputs ss ∨ w = l.wire := by simpa [Statement.input?] using h
      have hd : driven (ss ++ [.input l]) = driven ss := by simp [driven, Statement.gate?]
      rw [hd]
      rcases hi with hi | rfl
      · exact ih prior hi
      · exact fun hd => last (mem_driven_declared hd)
    | output l seed =>
      have hi : w ∈ inputs ss := by simpa [Statement.input?] using h
      simpa [driven, Statement.gate?] using ih prior hi
    | gate f out a b =>
      have hi : w ∈ inputs ss := by simpa [Statement.input?] using h
      have hne : w ≠ out := fun he => last.1.2 (he ▸ hi)
      simpa [driven, Statement.gate?, hne] using ih prior hi

/-- Outputs are distinct. -/
theorem outputs_nodup (adm : AdmissibleAfter [] ss) : ((outputs ss).map Literal.wire).Nodup := by
  induction ss using List.reverseRecOn with
  | nil => exact List.nodup_nil
  | append_singleton ss s ih =>
    obtain ⟨prior, last⟩ := admissible_concat.mp adm
    cases s with
    | output l seed =>
      have h : outputs (ss ++ [.output l seed]) = outputs ss ++ [l] := by simp [Statement.output?]
      rw [h, List.map_append, List.nodup_append]
      refine ⟨ih prior, by simp, fun v hv w hw he => ?_⟩
      rw [List.map_singleton, List.mem_singleton] at hw
      exact last (hw ▸ he ▸ hv)
    | input l => simpa [Statement.output?] using ih prior
    | gate f out a b => simpa [Statement.output?] using ih prior

/-- An output has the value that its own line gives it. -/
theorem seed?_output (adm : AdmissibleAfter [] ss) {l : Literal} {seed : Option Bool}
    (h : Statement.output l seed ∈ ss) : seed? ss l.wire = seed := by
  induction ss using List.reverseRecOn with
  | nil => cases h
  | append_singleton ss s ih =>
    obtain ⟨prior, last⟩ := admissible_concat.mp adm
    rw [seed?_concat]
    rcases List.mem_append.mp h with old | new
    · rw [ih prior old]
      cases s with
      | output l' seed' =>
        have hne : l'.wire ≠ l.wire := fun he =>
          last (he ▸ List.mem_map_of_mem (mem_outputs.mpr ⟨seed, old⟩))
        simp [Statement.seedFor?, hne]
      | input l' => exact Option.or_none
      | gate f out a b => exact Option.or_none
    · cases List.mem_singleton.mp new
      rw [seed?_eq_none last]
      simp [Statement.seedFor?]

end GateNet.Netlist
