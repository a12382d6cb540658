import GateNet.Proofs.Command.Synthesis
import GateNet.Proofs.Command.Arguments
import GateNet.Proofs.BitString

/-!
The two commands on the files between them. What a compilation writes, the evaluation reads back: it
finds the circuit with its inputs, constants and complements as they were, and so prints the same bits.
-/

namespace GateNet

open Circuit hiding value
open TwosComplement

namespace Command

variable {σ : Type} {host : Host (StateM σ)} {s : σ} {bits : List Bool}

/-! ### Files -/

theorem readFrom_ok {path text : String} {c : Circuit}
    (h : (host.read path s).1 = .ok text.toUTF8) (hc : Netlist.parse text = .ok c) :
    Netlist.readFrom host path s = (.ok c, (host.read path s).2) := by
  show ((host.readText path s).1.bind Netlist.parse, (host.readText path s).2) = _
  rw [Host.readText_ok h, ← hc]
  rfl

theorem loadFrom_ok {path text : String} {c d : Circuit}
    (h : (host.read path s).1 = .ok text.toUTF8) (hd : Values.load c text = ⟨d, none⟩) :
    (Attempt.result <$> Values.loadFrom host path c) s = (.ok d, (host.read path s).2) := by
  have hload : Values.loadFrom host path c s = (⟨d, none⟩, (host.read path s).2) := by
    show Bind.bind (m := StateM σ) (host.readText path) _ s = _
    simp only [Bind.bind, StateT.bind]
    rw [Host.readText_ok h, ← hd]
    rfl
  show ((Values.loadFrom host path c s).1.result, (Values.loadFrom host path c s).2) = _
  rw [hload]
  rfl

/-- A netlist and a value file that can be read are evaluated, and the outputs printed. -/
theorem ends_evaluate {p q netlist values : String} {c l e : Circuit} (isSigned : Bool)
    (hp : (host.read p s).1 = .ok netlist.toUTF8)
    (hq : (host.read q (host.read p s).2).1 = .ok values.toUTF8)
    (hparse : Netlist.parse netlist = .ok c) (hload : Values.load c values = ⟨l, none⟩)
    (hexecute : l.execute = ⟨e, none⟩) (hbits : e.outputBits = .ok (bitText bits)) (hb : bits ≠ []) :
    Ends (evaluate host ⟨p, q, isSigned⟩) "" s (.ok ())
      (bitText bits ++ "\n" ++
        if isSigned then toString (signed (value bits) bits.length) ++ "\n" else "")
      (host.read q (host.read p s).2).2 := by
  have hresult : l.execute.result = .ok e := by
    rw [hexecute]
    rfl
  rw [evaluate, ← String.empty_append (s := bitText bits)]
  refine .bind (.within (ends_ofHost (readFrom_ok hp hparse)) _) (.bind
    (.within (ends_ofHost (loadFrom_ok hq hload)) _) (.bind (.within (ends_ofCause hresult) _)
    (.bind (ends_ofCause hbits) (.bind (ends_say _) ?_))))
  cases isSigned with
  | false =>
    simp only [Bool.false_eq_true, if_false, String.append_empty]
    exact .pure ()
  | true =>
    simp only [if_true, ← String.append_assoc]
    exact .bind (ends_ofInteger (signedOfText_bitText hb)) (ends_say _)

/-- In a directory, files of different names can be written one after the other, and then hold what was
written. -/
theorem emits_directory {r : SynthRequest} {p q m n : String} (hp : r.circuitPath = some p)
    (hq : r.valuesPath = some q) (hm : Directory.Locates p m) (hn : Directory.Locates q n) (hne : m ≠ n)
    (netlist values : String) (d : Directory) :
    Emits Directory.host r netlist values d ∧
      (Directory.host.read p (emitted Directory.host r netlist values d)).1 = .ok netlist.toUTF8 ∧
      (Directory.host.read q (emitted Directory.host r netlist values d)).1 = .ok values.toUTF8 := by
  have hfirst : writing Directory.host r.circuitPath netlist d = (.ok (), d.put m netlist.toUTF8) := by
    rw [hp]
    exact hm.host_write ..
  have hsecond : ∀ d', writing Directory.host r.valuesPath values d' =
      (.ok (), d'.put n values.toUTF8) := fun d' => by
    rw [hq]
    exact hn.host_write ..
  have hfiles : emitted Directory.host r netlist values d =
      (d.put m netlist.toUTF8).put n values.toUTF8 := by
    rw [emitted, hfirst]
    exact congrArg Prod.snd (hsecond _)
  rw [hfiles]
  refine ⟨⟨congrArg Prod.fst hfirst, congrArg Prod.fst (hsecond _)⟩, ?_, hn.read_put_self ..⟩
  exact (hm.read_put_of_ne hne ..).trans (hm.read_put_self ..)

/-! ### The commands -/

/-- Evaluating the two files of a request succeeds and prints the bits, and after them, for a number of
which the signed reading is asked for, the result in plain words. The netlist and the values are found in
the files, and the netlist is no longer than a file can be. -/
def Repeats (host : Host (StateM σ)) (s : σ) (r : SynthRequest) (netlist values : String)
    (bits : List Bool) : Prop :=
  ∀ p q, r.circuitPath = some p → r.valuesPath = some q →
    (host.read p s).1 = .ok netlist.toUTF8 → (host.read q (host.read p s).2).1 = .ok values.toUTF8 →
    netlist.toUTF8.size < 9223372036854775808 →
    ∀ args isSigned, parseArguments args = .ok (.run ⟨p, q, isSigned⟩) →
      ∃ more, (perform host args s).1 = { code := 0, output := bitText bits ++ "\n" ++ more } ∧
        (isSigned = false → more = "") ∧
        (isSigned = true → r.operation.isComparison = false → more = r.operation.words bits ++ "\n")

/-- What a compilation writes is evaluated to its bits. -/
theorem Compiles.repeats {r : SynthRequest} {x : Word} {c : Circuit} {replies : List Reply}
    (hr : r.Valid) (h : Compiles r x c bits replies) (host : Host (StateM σ)) (s : σ) :
    Repeats host s r (Netlist.render (delivered c x)) (Values.render (delivered c x)) bits := by
  intro p q hp hq hnetlist hvalues hsize args isSigned hargs
  obtain ⟨c', l, e, hparse, hload, hexecute, hbits⟩ := h.reread hsize
  have hb : bits ≠ [] := by
    rintro rfl
    have hlength := h.length
    have hwidth := hr.width
    rw [Arithmetic.bits] at hlength
    split at hlength <;> simp at hlength
    omega
  have hends := ends_evaluate isSigned hnetlist hvalues hparse hload hexecute hbits hb
  have hperform : perform host args = Exit.ofProgram (evaluate host ⟨p, q, isSigned⟩) := by
    rw [perform, hargs]
  rw [hperform, hends.exit_eq]
  refine ⟨_, rfl, fun hs => if_neg (by simp [hs]), fun hs ho => ?_⟩
  rw [if_pos hs, Arithmetic.words, ho]
  rfl

/-- Every request that can be spelled has a command line. A compilation of operands that fit succeeds if
its two texts can be written: it prints the bits of what the operation delivers on the signed readings of
the operands, and the result in plain words, and evaluating the two texts, if they are then found in their
files, repeats the bits. A compilation of no bits, or of operands that are missing or do not fit, fails,
prints no result and writes nothing. -/
theorem perform_agrees :
    (∀ r : SynthRequest, r.Spellable → parseArguments ("synth" :: r.arguments) = .ok (.synth r)) ∧
    (∀ r : RunRequest, r.circuitPath ≠ "" → r.valuesPath ≠ "" →
      parseArguments ("run" :: r.arguments) = .ok (.run r)) ∧
    ∀ (args : List String) (r : SynthRequest), parseArguments args = .ok (.synth r) →
      (r.Valid →
        ∃ netlist values bits rest,
          bits.length = r.operation.bits r.width ∧
          (∀ result, r.operation.deliver? (Int.bmod r.a (modulus r.width))
            (Int.bmod (r.b.getD 0) (modulus r.width)) = some result → bits = result.pattern r.width) ∧
          ∀ {σ : Type} (host : Host (StateM σ)) (s : σ),
            (perform host args s).2 = emitted host r netlist values s ∧
            (Emits host r netlist values s → (perform host args s).1 =
              { code := 0
                output := bitText bits ++ "\n" ++ r.operation.words bits ++ "\n" ++ rest ++ "\n" }) ∧
            Repeats host (perform host args s).2 r netlist values bits) ∧
      (¬ r.Valid → ∃ failures, ∀ {σ : Type} (host : Host (StateM σ)) (s : σ),
        perform host args s = ({ code := 1, failures }, s)) := by
  refine ⟨fun r => parse_synth, fun r => parse_run, fun args r hargs => ⟨fun hr => ?_, fun hr => ?_⟩⟩
  · obtain ⟨x, c, bits, replies, h⟩ := compiles_of_valid hr
    refine ⟨Netlist.render (delivered c x), Values.render (delivered c x), bits,
      (delivered c x).tally.text, h.length, h.delivers, fun host s => ?_⟩
    obtain ⟨result, hends, hok⟩ := ends_synthesize host s hr h
    rw [perform_synthesize hargs]
    rw [hends.exit_eq]
    refine ⟨rfl, fun hemits => ?_, h.repeats hr host _⟩
    rw [hok.mpr hemits, exitOf]
  · obtain ⟨report, hreport⟩ := ends_synthesize_error hr
    refine ⟨report.text, fun host s => ?_⟩
    rw [perform_synthesize hargs]
    exact (hreport host s).exit_eq

/-- One minus two at a width of two bits, where two is read as its pattern. -/
theorem perform_agrees_difference :
    ∃ rest files,
      perform Directory.host
        ["synth", "sub", "-w", "2", "-a", "1", "-b", "2", "--emit-circuit", "c", "--emit-values", "v"] {} =
        ({ code := 0, output := "11\n-1\n" ++ rest ++ "\n" }, files) ∧
      (perform Directory.host ["run", "c", "v", "--signed"] files).1 =
        { code := 0, output := "11\n-1\n" } := by
  have hargs : parseArguments
      ["synth", "sub", "-w", "2", "-a", "1", "-b", "2", "--emit-circuit", "c", "--emit-values", "v"] =
      .ok (.synth ⟨.sub, 2, 1, some 2, some "c", some "v"⟩) := rfl
  have hc : Directory.Locates "c" "c" := ⟨⟨[], rfl, by simp⟩, by decide⟩
  have hv : Directory.Locates "v" "v" := ⟨⟨[], rfl, by simp⟩, by decide⟩
  have hsize : ((Directory.host.read "c" (perform Directory.host
      ["synth", "sub", "-w", "2", "-a", "1", "-b", "2", "--emit-circuit", "c", "--emit-values", "v"]
      {}).2).1.toOption.map (·.size)) = some 294 := by decide +kernel
  obtain ⟨netlist, values, bits, rest, -, hbits, hrun⟩ := (perform_agrees.2.2 _ _ hargs).1
    ⟨by decide, by decide, fun _ => ⟨2, rfl, by decide⟩⟩
  obtain ⟨hfiles, hexit, hrepeats⟩ := hrun Directory.host {}
  obtain rfl : bits = [true, true] := hbits _ rfl
  obtain ⟨hemits, hnetlist, hvalues⟩ := emits_directory (r := ⟨.sub, 2, 1, some 2, some "c", some "v"⟩)
    rfl rfl hc hv (by decide) netlist values {}
  rw [← hfiles] at hnetlist hvalues
  generalize perform Directory.host
    ["synth", "sub", "-w", "2", "-a", "1", "-b", "2", "--emit-circuit", "c", "--emit-values", "v"] {} =
    outcome at *
  obtain ⟨exit, files⟩ := outcome
  obtain rfl := hexit hemits
  rw [hnetlist] at hsize
  have hsmall : netlist.toUTF8.size = 294 := Option.some.inj hsize
  obtain ⟨more, hagain, -, hmore⟩ := hrepeats "c" "v" rfl rfl hnetlist hvalues (by omega)
    ["run", "c", "v", "--signed"] true rfl
  obtain rfl : more = "-1\n" := hmore rfl rfl
  exact ⟨rest, files, rfl, hagain⟩

end Command

end GateNet
