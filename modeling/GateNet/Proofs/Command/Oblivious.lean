import GateNet.Proofs.Command.Synthesis

/-!
The data have no part in what is built. Two runs of one program of synthesis come to the same circuit
but for raw values, and compiling an operation is such a program: whatever its operands are, the netlist
that is written is that of the operation and the width.
-/

namespace GateNet.Command

open Circuit hiding value
open Netlist TwosComplement

variable {r r' : SynthRequest} {x x' : Word} {c c' : Circuit} {bits bits' : List Bool}
  {replies replies' : List Reply}

/-- Requests of one operation and width write the same netlist. -/
theorem Compiles.render_eq (h : Compiles r x c bits replies) (h' : Compiles r' x' c' bits' replies')
    (ho : r'.operation = r.operation) (hw : r'.width = r.width) :
    Netlist.render (delivered c' x') = Netlist.render (delivered c x) := by
  have hruns := h'.executed
  rw [ho, hw] at hruns
  refine (synthesis_oblivious hruns h.executed ?_).2.2
  rw [List.length_append, List.length_append, h.steps, h'.steps, ho]

/-- Whether and which values the inputs are given, and whether and when the circuit is executed, shows
neither in the replies to a program of synthesis nor in the structure of the circuit or in its netlist.
So the netlist that is written for an operation of some width is the same for all operands. -/
theorem construction_oblivious :
    (∀ (program : List Reply → Operation) (replies replies' : List Reply) (c d : Circuit),
      Runs program replies c → Runs program replies' d → replies.length = replies'.length →
      replies = replies' ∧ SameStructure c d ∧ Netlist.render c = Netlist.render d) ∧
    ∀ (operation : Arithmetic) (width : Nat), ∃ netlist,
      ∀ {σ : Type} (host : Host (StateM σ)) (s : σ) (args : List String) (r : SynthRequest),
        parseArguments args = .ok (.synth r) → r.operation = operation → r.width = width → r.Valid →
        ∃ values, (perform host args s).2 = emitted host r netlist values s := by
  refine ⟨fun program replies replies' c d h h' hlength => synthesis_oblivious h h' hlength,
    fun operation width => ?_⟩
  by_cases hex : ∃ r : SynthRequest, r.operation = operation ∧ r.width = width ∧ r.Valid
  · obtain ⟨r₀, rfl, rfl, hr₀⟩ := hex
    obtain ⟨x₀, c₀, bits₀, replies₀, h₀⟩ := compiles_of_valid hr₀
    refine ⟨Netlist.render (delivered c₀ x₀), fun host s args r hargs ho hw hr => ?_⟩
    obtain ⟨x, c, bits, replies, h⟩ := compiles_of_valid hr
    obtain ⟨result, hends, -⟩ := ends_synthesize host s hr h
    refine ⟨Values.render (delivered c x), ?_⟩
    rw [perform_synthesize hargs, hends.exit_eq, h₀.render_eq h ho hw]
  · exact ⟨"", fun host s args r _ ho hw hr => absurd ⟨r, ho, hw, hr⟩ hex⟩

/-- An input that is given a value before its complement is built, and one that is never given any; and
two quotients of numbers of three bits. -/
theorem construction_oblivious_complement :
    (∃ (program : List Reply → Operation) (replies : List Reply) (c d : Circuit),
      Runs program replies c ∧ Runs program replies d ∧
      c.wires.raw? 1 = some false ∧ d.wires.raw? 1 = none ∧ Netlist.render c = Netlist.render d) ∧
    ∃ netlist, ∀ args ∈ [["synth", "div", "-w", "3", "-a", "3", "-b", "2", "--emit-circuit", "c"],
        ["synth", "div", "-w", "3", "-a", "-4", "-b", "0", "--emit-circuit", "c"]],
      (perform Directory.host args {}).2.get? "c" = some (String.toUTF8 netlist) := by
  refine ⟨?_, ?_⟩
  · have hstart : Runs (fun replies => .build (if replies.isEmpty then .issueInput else .invert 0))
        [] {} := .start
    have hinput := hstart.synthesis trivial rfl
    have hgiven := hinput.supply ⟨.assign 0 true, id, rfl, by rintro w rfl -; rfl⟩
    have hc := hgiven.synthesis trivial rfl
    have hd := hinput.synthesis trivial rfl
    exact ⟨_, _, _, _, hc, hd, rfl, rfl, (construction_oblivious.1 _ _ _ _ _ hc hd rfl).2.2⟩
  · obtain ⟨netlist, h⟩ := construction_oblivious.2 .div 3
    have hpath : Directory.Locates "c" "c" := ⟨⟨[], rfl, by simp⟩, by decide⟩
    have hfile : ∀ args a b, parseArguments args = .ok (.synth ⟨.div, 3, a, some b, some "c", none⟩) →
        Fits a 3 → Fits b 3 →
        (perform Directory.host args {}).2.get? "c" = some (String.toUTF8 netlist) := by
      intro args a b hargs ha hb
      obtain ⟨values, hfiles⟩ := h Directory.host {} args _ hargs rfl rfl
        ⟨Nat.le_add_left 1 2, ha, fun _ => ⟨b, rfl, hb⟩⟩
      have hwrite : writing Directory.host (some "c") netlist {} =
          (.ok (), ({} : Directory).put "c" netlist.toUTF8) := hpath.host_write ..
      rw [hfiles, emitted, hwrite]
      show (({} : Directory).put "c" netlist.toUTF8).get? "c" = _
      rw [Directory.get?_put, if_pos rfl]
    refine ⟨netlist, fun args hargs => ?_⟩
    rcases List.mem_cons.mp hargs with rfl | hargs
    · exact hfile _ 3 2 rfl (by decide) (by decide)
    · obtain rfl := List.mem_singleton.mp hargs
      exact hfile _ (-4) 0 rfl (by decide) (by decide)

end GateNet.Command
