import Mathlib.Data.List.Forall2
import Mathlib.Data.List.TakeDrop
import GateNet.Command.Request
import GateNet.Proofs.Text.Split

/-!
Command lines for requests. Every request can be asked for: an option is given its value after an equals
sign, so that the value may start in any way, and the paths of an evaluation come after everything that
could be an option.
-/

namespace GateNet

namespace Text

/-- Digits are read as a group of digits. -/
theorem groupedDigits?_digits (n : Nat) : groupedDigits? (digits n) = some n := by
  have hplain : '_' ∉ digits n := not_mem_digits_of_isDigit rfl n
  have hfilter : (digits n).filter (· != '_') = digits n := by
    refine List.filter_eq_self.mpr fun c hc => ?_
    have hne : c ≠ '_' := fun he => hplain (he ▸ hc)
    simpa using hne
  rw [groupedDigits?]
  · rw [hfilter, digitsValue?_toDigits]
  · exact digits_ne_nil n
  · exact fun rest h => hplain (h ▸ List.mem_cons_self)

/-- An integer is read back from its decimal text. -/
theorem integer?_toString (v : Int) : integer? (toString v).toList = some v := by
  cases v with
  | ofNat n =>
    have htext : (toString (Int.ofNat n)).toList = digits n := Nat.toList_repr
    rw [htext, integer?]
    · rw [dropPlus_toDigits, groupedDigits?_digits]
      rfl
    · exact fun rest h => not_mem_digits_of_isDigit (c := '-') rfl n (h ▸ List.mem_cons_self)
  | negSucc n =>
    have htext : (toString (Int.negSucc n)).toList = '-' :: digits (n + 1) := by
      show ("-" ++ Nat.repr (n + 1)).toList = _
      rw [String.toList_append, Nat.toList_repr]
      rfl
    rw [htext, integer?, groupedDigits?_digits]
    rfl

end Text

namespace Command

variable {κ : Type} {specs : List (OptionSpec κ)} {spec : OptionSpec κ} {value : String}

/-! ### Spelling items -/

/-- The argument is read as the item, whatever follows it. -/
structure Spells (specs : List (OptionSpec κ)) (arg : String) (item : Item κ) : Prop where
  not_end : arg ≠ "--"
  read : readArgument specs arg = .ok (.complete item)
  not_help : item ≠ .help

theorem scan_spelled {args : List String} {items : List (Item κ)}
    (h : List.Forall₂ (Spells specs) args items) : scan specs none args = .ok items := by
  induction h with
  | nil => rfl
  | @cons arg item args items harg _ ih =>
    obtain ⟨hend, hread, hhelp⟩ := harg
    rw [scan, if_neg hend, hread]
    cases item with
    | help => exact absurd rfl hhelp
    | _ =>
      show (scan specs none args >>= _) = _
      rw [ih]
      rfl

/-- An option in its long spelling. -/
def longArgument (name value : String) : String := "--" ++ name ++ "=" ++ value

/-- An option in its one-letter spelling. -/
def shortArgument (letter : Char) (value : String) : String :=
  "-" ++ String.singleton letter ++ "=" ++ value

theorem splitAssignment_append {name : List Char} (h : '=' ∉ name) (value : List Char) :
    splitAssignment (name ++ '=' :: value) = (String.ofList name, some (String.ofList value)) := by
  have hname : ∀ c ∈ name, (c != '=') = true := fun c hc => by
    have hne : c ≠ '=' := fun he => h (he ▸ hc)
    simpa using hne
  have hspan : (name ++ '=' :: value).span (· != '=') = (name, '=' :: value) := by
    rw [List.span_eq_takeWhile_dropWhile, List.takeWhile_append_of_pos hname,
      List.dropWhile_append_of_pos hname]
    simp
  rw [splitAssignment, hspan]

theorem spells_long (name value : String) {key : κ} (hname : '=' ∉ name.toList)
    (hspec : (specs.find? fun spec => spec.long == some name).map (fun spec => (spec.key, spec.takesValue)) =
      some (key, true)) :
    Spells specs (longArgument name value) (.option key (some value)) := by
  have htext : (longArgument name value).toList =
      '-' :: '-' :: (name.toList ++ '=' :: value.toList) := by
    simp [longArgument, String.toList_append]
  obtain ⟨spec, hfind, hkey⟩ := Option.map_eq_some_iff.mp hspec
  obtain ⟨rfl, htakes⟩ := Prod.mk.inj hkey
  refine ⟨fun he => ?_, ?_, nofun⟩
  · rw [he] at htext
    simp at htext
  · rw [readArgument, htext]
    show readLong specs (splitAssignment _).1 (splitAssignment _).2 = _
    rw [splitAssignment_append hname, String.ofList_toList, String.ofList_toList]
    simp only [readLong, hfind, if_pos htakes]

theorem spells_short (letter : Char) (value : String) {key : κ} (hletter : letter ≠ '-')
    (hspec : (specs.find? fun spec => spec.short == some letter).map OptionSpec.key = some key) :
    Spells specs (shortArgument letter value) (.option key (some value)) := by
  have htext : (shortArgument letter value).toList = '-' :: letter :: '=' :: value.toList := by
    simp [shortArgument, String.toList_append]
  have hread : readArgument specs (shortArgument letter value) =
      readShort specs letter ('=' :: value.toList) := by
    rw [readArgument, htext]
    split
    · next h =>
      cases h
      exact absurd rfl hletter
    · next h =>
      cases h
      rfl
    · next h => exact (h _ _ rfl).elim
  obtain ⟨spec, hfind, rfl⟩ := Option.map_eq_some_iff.mp hspec
  refine ⟨fun he => ?_, ?_, nofun⟩
  · rw [he] at htext
    simp at htext
  · rw [hread, readShort, hfind, attachedValue, String.ofList_toList]

/-! ### Compiling -/

/-- The name of an operation on the command line. -/
def Arithmetic.name : Arithmetic → String
  | .add => "add"
  | .sub => "sub"
  | .neg => "neg"
  | .lt => "lt"
  | .le => "le"
  | .eq => "eq"
  | .div => "div"

theorem Arithmetic.ofName?_name (operation : Arithmetic) : ofName? operation.name = some operation := by
  cases operation <;> rfl

/-- A request that can be spelled: the width is a number of 64 bits, and no path is empty. -/
structure SynthRequest.Spellable (r : SynthRequest) : Prop where
  width : r.width < Text.numberLimit
  circuitPath : r.circuitPath ≠ some ""
  valuesPath : r.valuesPath ≠ some ""

/-- The items of a request. -/
def SynthRequest.items (r : SynthRequest) : List (Item SynthOption) :=
  [.positional r.operation.name, .option .width (some (toString r.width)),
    .option .a (some (toString r.a))] ++
  r.b.toList.map (fun b => .option .b (some (toString b))) ++
  r.circuitPath.toList.map (fun p => .option .circuitPath (some p)) ++
  r.valuesPath.toList.map fun p => .option .valuesPath (some p)

/-- The arguments that spell the items of a request. -/
def SynthRequest.arguments (r : SynthRequest) : List String :=
  [r.operation.name, longArgument "width" (toString r.width), shortArgument 'a' (toString r.a)] ++
  r.b.toList.map (fun b => shortArgument 'b' (toString b)) ++
  r.circuitPath.toList.map (longArgument "emit-circuit") ++
  r.valuesPath.toList.map (longArgument "emit-values")

theorem SynthRequest.spells_arguments (r : SynthRequest) :
    List.Forall₂ (Spells synthOptions) r.arguments r.items := by
  have hname : Spells synthOptions r.operation.name (.positional r.operation.name) := by
    cases r.operation <;> exact ⟨by decide, rfl, nofun⟩
  have hoptional : ∀ {α : Type} {value : Option α} {f : α → String} {g : α → Item SynthOption},
      (∀ a, Spells synthOptions (f a) (g a)) →
      List.Forall₂ (Spells synthOptions) (value.toList.map f) (value.toList.map g) := by
    intro α value f g h
    cases value with
    | none => exact .nil
    | some a => exact .cons (h a) .nil
  have hgiven : List.Forall₂ (Spells synthOptions)
      [r.operation.name, longArgument "width" (toString r.width), shortArgument 'a' (toString r.a)]
      [.positional r.operation.name, .option .width (some (toString r.width)),
        .option .a (some (toString r.a))] :=
    .cons hname (.cons (spells_long _ _ (by decide) rfl) (.cons (spells_short _ _ (by decide) rfl) .nil))
  exact List.rel_append (List.rel_append (List.rel_append hgiven
    (hoptional fun b => spells_short _ _ (by decide) rfl))
    (hoptional fun p => spells_long _ _ (by decide) rfl))
    (hoptional fun p => spells_long _ _ (by decide) rfl)

/-- What is given for an optional value is added to what was given before. -/
theorem foldlM_optional {α : Type} (value : Option α) (g : α → Item SynthOption)
    (set : Option α → SynthDraft)
    (h : ∀ a, value = some a → SynthDraft.add (set none) (g a) = .ok (set (some a))) :
    (value.toList.map g).foldlM SynthDraft.add (set none) = .ok (set value) := by
  cases value with
  | none => rfl
  | some a =>
    show (SynthDraft.add (set none) (g a) >>= _) = _
    rw [h a rfl]
    rfl

theorem path?_ok {path : String} (h : path ≠ "") : path? path = some path := if_neg h

theorem fill_read {α : Type} {read : String → Option α} {text : String} {a : α}
    (h : read text = some a) : fill none ((some text).bind read) = .ok (some a) := by
  rw [Option.bind_some, h]
  rfl

/-- The items of a request make it up. -/
theorem SynthRequest.foldlM_items {r : SynthRequest} (h : r.Spellable) :
    r.items.foldlM SynthDraft.add {} =
      .ok ⟨some r.operation, some r.width, some r.a, r.b, r.circuitPath, r.valuesPath⟩ := by
  have hname : fill none (some r.operation) = .ok (some r.operation) := rfl
  have hwidth : fill none ((some (toString r.width)).bind (Text.number? ·.toList)) =
      .ok (some r.width) := fill_read (by
    rw [Nat.toString_eq_repr, Nat.toList_repr, Text.number?_toDigits h.width])
  have hinteger : ∀ v : Int, fill none ((some (toString v)).bind (Text.integer? ·.toList)) =
      .ok (some v) := fun v => fill_read (Text.integer?_toString v)
  have hpath : ∀ {path : Option String}, path ≠ some "" → ∀ p, path = some p →
      fill none ((some p).bind path?) = .ok (some p) := fun hpath p hp =>
    fill_read (path?_ok fun he => hpath (he ▸ hp))
  have hgiven : [Item.positional r.operation.name, .option .width (some (toString r.width)),
      .option .a (some (toString r.a))].foldlM SynthDraft.add {} =
      .ok ⟨some r.operation, some r.width, some r.a, none, none, none⟩ := by
    simp only [List.foldlM_cons, List.foldlM_nil, SynthDraft.add, Arithmetic.ofName?_name, bind,
      Except.bind, pure, Except.pure, hname, hwidth, hinteger]
  have hb := foldlM_optional r.b (fun b => .option .b (some (toString b)))
    (fun b => ⟨some r.operation, some r.width, some r.a, b, none, none⟩) fun b _ => by
      simp only [SynthDraft.add, hinteger, bind, Except.bind, pure, Except.pure]
  have hc := foldlM_optional r.circuitPath (fun p => .option .circuitPath (some p))
    (fun p => ⟨some r.operation, some r.width, some r.a, r.b, p, none⟩) fun p hp => by
      simp only [SynthDraft.add, hpath h.circuitPath p hp, bind, Except.bind, pure, Except.pure]
  have hv := foldlM_optional r.valuesPath (fun p => .option .valuesPath (some p))
    (fun p => ⟨some r.operation, some r.width, some r.a, r.b, r.circuitPath, p⟩) fun p hp => by
      simp only [SynthDraft.add, hpath h.valuesPath p hp, bind, Except.bind, pure, Except.pure]
  rw [SynthRequest.items]
  simp only [List.foldlM_append, hgiven, bind, Except.bind, hb, hc, hv]

/-- The arguments of a request are read as the request. -/
theorem parse_synth {r : SynthRequest} (h : r.Spellable) :
    parseArguments ("synth" :: r.arguments) = .ok (.synth r) := by
  show Request.synth <$> readItems synthOptions SynthDraft.add SynthDraft.complete {} r.arguments = _
  rw [readItems, scan_spelled r.spells_arguments]
  show Request.synth <$> (r.items.foldlM SynthDraft.add {} >>= _) = _
  rw [r.foldlM_items h]
  rfl

/-! ### Evaluating -/

/-- The arguments that spell an evaluation: after two dashes everything is a path. -/
def RunRequest.arguments (r : RunRequest) : List String :=
  (if r.signed then ["--signed"] else []) ++ ["--", r.circuitPath, r.valuesPath]

/-- The arguments of an evaluation of two paths are read as it. -/
theorem parse_run {r : RunRequest} (hc : r.circuitPath ≠ "") (hv : r.valuesPath ≠ "") :
    parseArguments ("run" :: r.arguments) = .ok (.run r) := by
  obtain ⟨p, q, isSigned⟩ := r
  have hp : path? p = some p := path?_ok hc
  have hq : path? q = some q := path?_ok hv
  have hpaths : ∀ s, [Item.positional p, .positional q].foldlM RunDraft.add ⟨none, none, s⟩ =
      .ok ⟨some p, some q, s⟩ := fun s => by
    simp only [List.foldlM_cons, List.foldlM_nil, RunDraft.add, hp, hq, bind, Except.bind, pure,
      Except.pure]
    rfl
  cases isSigned with
  | false =>
    show Request.run <$> ([Item.positional p, .positional q].foldlM RunDraft.add {} >>= _) = _
    rw [hpaths]
    rfl
  | true =>
    show Request.run <$> ([Item.positional p, .positional q].foldlM RunDraft.add ⟨none, none, true⟩ >>= _)
      = _
    rw [hpaths]
    rfl

end Command

end GateNet
