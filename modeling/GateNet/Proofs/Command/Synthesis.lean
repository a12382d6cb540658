import GateNet.Proofs.Command.Delivery
import GateNet.Proofs.Files

/-!
Compiling on the command line. A valid request prints the bits of its result, the result in plain words
and the tally of its gates, and then writes what it is asked to write; any other request ends in a report
before it has printed or written anything.
-/

namespace GateNet.Command

open Circuit hiding value
open TwosComplement

variable {σ : Type} {host : Host (StateM σ)} {s s' : σ} {r : SynthRequest} {x : Word} {c : Circuit}
  {bits : List Bool} {replies : List Reply} {out : String}

theorem perform_synthesize {args : List String} (h : parseArguments args = .ok (.synth r)) :
    perform host args = Exit.ofProgram (synthesize host r) := by
  rw [perform, h]

/-! ### Valid requests -/

/-- Whether a text is written to a path, if there is one, and the files after that. -/
def writing (host : Host (StateM σ)) (path : Option String) (text : String) (s : σ) :
    Except FileError Unit × σ :=
  match path with
  | some path => host.write path text s
  | none => (.ok (), s)

/-- The files after a netlist is written and then, unless that fails, the values. -/
def emitted (host : Host (StateM σ)) (r : SynthRequest) (netlist values : String) (s : σ) : σ :=
  match writing host r.circuitPath netlist s with
  | (.ok (), s') => (writing host r.valuesPath values s').2
  | (.error _, s') => s'

/-- The netlist can be written, and after it the values. -/
def Emits (host : Host (StateM σ)) (r : SynthRequest) (netlist values : String) (s : σ) : Prop :=
  (writing host r.circuitPath netlist s).1 = .ok () ∧
    (writing host r.valuesPath values (writing host r.circuitPath netlist s).2).1 = .ok ()

/-- A text is written, or the program ends in a report of why it is not. -/
theorem ends_emit (host : Host (StateM σ)) (path : Option String) (text out : String) (s : σ) :
    ∃ result, Ends (emit path (host.writeText · text)) out s result out (writing host path text s).2 ∧
      (result = .ok () ↔ (writing host path text s).1 = .ok ()) := by
  cases path with
  | none => exact ⟨_, .pure (), iff_of_true rfl rfl⟩
  | some path =>
    refine ⟨_, ends_ofHost (Host.writeText_eq host path text s), ?_⟩
    rw [writing, mapError_ok_iff, mapError_ok_iff]

/-- The netlist is written first, and the values are written only if that succeeds. -/
theorem ends_emitted (host : Host (StateM σ)) (r : SynthRequest) (netlist values out : String) (s : σ) :
    ∃ result, Ends (do
        emit r.circuitPath (host.writeText · netlist)
        emit r.valuesPath (host.writeText · values)) out s result out (emitted host r netlist values s) ∧
      (result = .ok () ↔ Emits host r netlist values s) := by
  obtain ⟨first, hfirst, hok⟩ := ends_emit host r.circuitPath netlist out s
  rw [emitted, Emits, ← hok]
  generalize writing host r.circuitPath netlist s = written at *
  obtain ⟨_ | ⟨⟩, s'⟩ := written
  · obtain ⟨report, rfl⟩ : ∃ report, first = .error report := by
      cases first with
      | ok u => cases hok.mp rfl
      | error report => exact ⟨report, rfl⟩
    exact ⟨_, .bind_error hfirst, by simp⟩
  · obtain rfl := hok.mpr rfl
    obtain ⟨second, hsecond, hok'⟩ := ends_emit host r.valuesPath values out s'
    exact ⟨second, .bind hfirst hsecond, by simp [hok']⟩

/-- A compiled request prints its result and writes its circuit. -/
theorem ends_synthesize (host : Host (StateM σ)) (s : σ) (hr : r.Valid) (h : Compiles r x c bits replies) :
    ∃ result, Ends (synthesize host r) "" s result
        (bitText bits ++ "\n" ++ r.operation.words bits ++ "\n" ++ (delivered c x).tally.text ++ "\n")
        (emitted host r (Netlist.render (delivered c x)) (Values.render (delivered c x)) s) ∧
      (result = .ok () ↔
        Emits host r (Netlist.render (delivered c x)) (Values.render (delivered c x)) s) := by
  have hmark : (x.markOutput c).result = .ok (delivering c x) := by
    rw [h.compiled.markOutput]
    rfl
  have hexecute : (delivering c x).execute.result = .ok (delivered c x) := by
    rw [h.compiled.execute]
    rfl
  obtain ⟨result, hends, hok⟩ := ends_emitted host r (Netlist.render (delivered c x))
    (Values.render (delivered c x))
    (bitText bits ++ "\n" ++ r.operation.words bits ++ "\n" ++ (delivered c x).tally.text ++ "\n") s
  refine ⟨result, ?_, hok⟩
  rw [synthesize, if_neg (Nat.ne_of_gt hr.width), ← String.empty_append (s := bitText bits)]
  exact .bind (h.ends _ _) (.bind (ends_ofCause hmark) (.bind
    (.within (ends_ofCause hexecute) _) (.bind (ends_ofCause h.compiled.outputBits)
    (.bind (ends_say _) (.bind (ends_ofCause (h.compiled.reading h.length)) (.bind (ends_say _)
    (.bind (ends_say _) hends)))))))

/-! ### Other requests -/

/-- An operand that does not fit ends in a report before anything is printed. -/
theorem ends_operand_error (h : Ready c) {width : Nat} {v : Int} (hw : 1 ≤ width)
    (hv : ¬ Fits v width) (context : String) :
    Ends (operand context width v c : Program (StateM σ) (Word × Circuit)) out s
      (.error ((Report.ofIntegerError (.tooWide v width)).within context)) out s := by
  obtain ⟨d, hd, -⟩ := issueInputs_ok h.toSteady width
  generalize hx : (⟨List.range' c.nextWire width⟩ : Word) = x at hd
  have hwidth : x.width = width := hx ▸ List.length_range'
  have hassign : (x.assign d v).result = .error (.tooWide v width) := by
    rw [Word.assign, hwidth, encode_of_not_fits hw hv]
    rfl
  exact .bind (ends_ofBuild hd) (.bind_error (.within (ends_ofInteger hassign) context))

/-- A request that cannot be carried out is not compiled. -/
theorem ends_compile_error (hw : 1 ≤ r.width) (hr : ¬ r.Valid) :
    ∃ report, ∀ {σ : Type} (out : String) (s : σ),
      Ends (compile r : Program (StateM σ) (Word × Circuit)) out s (.error report) out s := by
  by_cases ha : Fits r.a r.width
  · obtain ⟨y, d, e, hends, -, -, hready, -⟩ := ends_operand Ready.empty hw ha
    by_cases ho : r.operation = .neg
    · exact absurd ⟨hw, ha, fun h => absurd ho h⟩ hr
    · cases hb : r.b with
      | none =>
        refine ⟨⟨s!"`{r.operation.label}` needs a second operand (-b)", []⟩, fun out s => ?_⟩
        refine .bind (hends ..) ?_
        rw [hb]
        cases h : r.operation with
        | neg => exact absurd h ho
        | _ => exact .throw
      | some v =>
        have hv : ¬ Fits v r.width := fun hv => hr ⟨hw, ha, fun _ => ⟨v, hb, hv⟩⟩
        refine ⟨(Report.ofIntegerError (.tooWide v r.width)).within "operand b", fun out s => ?_⟩
        rw [compile_binary ho hb]
        exact .bind (hends ..) (.bind_error (ends_operand_error hready hw hv _))
  · exact ⟨_, fun out s => .bind_error (ends_operand_error .empty hw ha _)⟩

/-- A request that cannot be carried out prints nothing and writes nothing. -/
theorem ends_synthesize_error (hr : ¬ r.Valid) :
    ∃ report, ∀ {σ : Type} (host : Host (StateM σ)) (s : σ),
      Ends (synthesize host r) "" s (.error report) "" s := by
  by_cases hw : r.width = 0
  · refine ⟨⟨"width must be at least one bit", []⟩, fun host s => ?_⟩
    rw [synthesize, if_pos hw]
    exact .bind_error .throw
  · obtain ⟨report, hreport⟩ := ends_compile_error (Nat.one_le_iff_ne_zero.mpr hw) hr
    refine ⟨report, fun host s => ?_⟩
    rw [synthesize, if_neg hw]
    exact .bind_error (hreport "" s)

end GateNet.Command
