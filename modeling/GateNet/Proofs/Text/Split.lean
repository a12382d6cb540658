import GateNet.Text.Decimal
import GateNet.Text.Split

/-!
Text that was put together is cut where it was joined: lines that end in a line feed, words with a blank
between them, and fields with a separator between them.
-/

namespace GateNet.Text

/-! ### Lines -/

theorem foldl_step_of_not_mem {line : List Char} (h : '\n' ∉ line) (scan : LineScan) :
    line.foldl LineScan.step scan = ⟨scan.done, line.reverse ++ scan.current⟩ := by
  induction line generalizing scan with
  | nil => rfl
  | cons c rest ih =>
    have hc : c ≠ '\n' := fun e => h (e ▸ List.mem_cons_self ..)
    have hrest : '\n' ∉ rest := fun m => h (List.mem_cons_of_mem c m)
    rw [List.foldl_cons, ih hrest, LineScan.step, if_neg hc]
    simp

/-- A line that does not end in a carriage return is kept as it is. -/
theorem finish_reverse {line : List Char} (h : '\r' ∉ line) : LineScan.finish line.reverse = line := by
  unfold LineScan.finish
  split
  · rename_i rest heq
    exact absurd (List.mem_reverse.mp (heq ▸ List.mem_cons_self ..)) h
  · exact List.reverse_reverse line

theorem foldl_step_lines {ls : List (List Char)} (h : ∀ l ∈ ls, '\n' ∉ l ∧ '\r' ∉ l)
    (done : List (List Char)) :
    (ls.flatMap (· ++ ['\n'])).foldl LineScan.step ⟨done, []⟩ = ⟨ls.reverse ++ done, []⟩ := by
  induction ls generalizing done with
  | nil => rfl
  | cons l rest ih =>
    obtain ⟨hn, hr⟩ := h l (List.mem_cons_self ..)
    have hfinish : LineScan.step ⟨done, l.reverse ++ []⟩ '\n' = ⟨l :: done, []⟩ := by
      rw [LineScan.step, if_pos rfl, List.append_nil, finish_reverse hr]
    rw [List.flatMap_cons, List.foldl_append, List.foldl_append, foldl_step_of_not_mem hn,
      List.foldl_cons, List.foldl_nil, hfinish, ih fun l' hl' => h l' (List.mem_cons_of_mem l hl')]
    simp

/-- Lines that each end in a line feed are read back. -/
theorem lines_joined {ls : List (List Char)} (h : ∀ l ∈ ls, '\n' ∉ l ∧ '\r' ∉ l) :
    lines (ls.flatMap (· ++ ['\n'])) = ls := by
  rw [lines, foldl_step_lines h []]
  simp [LineScan.lines]

/-- A text without a line feed is one line, unless it is empty. -/
theorem lines_of_not_mem {text : List Char} (h : '\n' ∉ text) (hne : text ≠ []) :
    lines text = [text] := by
  rw [lines, foldl_step_of_not_mem h, List.append_nil]
  cases hr : text.reverse with
  | nil => exact absurd (List.reverse_eq_nil_iff.mp hr) hne
  | cons c rest => simp [LineScan.lines, ← hr]

/-- The lines read before stay in front of those that follow. -/
theorem lines_foldl_step (text : List Char) (scan : LineScan) :
    (text.foldl LineScan.step scan).lines =
      scan.done.reverse ++ (text.foldl LineScan.step ⟨[], scan.current⟩).lines := by
  induction text generalizing scan with
  | nil =>
    rcases scan with ⟨done, _ | ⟨c, current⟩⟩ <;> simp [LineScan.lines]
  | cons c rest ih =>
    rw [List.foldl_cons, List.foldl_cons, LineScan.step, LineScan.step]
    split
    · rw [ih ⟨_ :: scan.done, []⟩, ih ⟨[_], []⟩]
      simp
    · exact ih _

/-- The first line ends at the first line feed. -/
theorem lines_append {line : List Char} (h : '\n' ∉ line) (rest : List Char) :
    lines (line ++ '\n' :: rest) = LineScan.finish line.reverse :: lines rest := by
  rw [lines, List.foldl_append, foldl_step_of_not_mem h, List.append_nil, List.foldl_cons,
    LineScan.step, if_pos rfl, lines_foldl_step]
  rfl

/-- The first lines of a text are the lines of its first part. -/
theorem exists_lines_eq {text : List Char} {before after : List (List Char)}
    (h : lines text = before ++ after) : ∃ head rest, text = head ++ rest ∧ lines head = before := by
  induction before generalizing text with
  | nil => exact ⟨[], text, rfl, rfl⟩
  | cons l before ih =>
    by_cases hmem : '\n' ∈ text
    · obtain ⟨line, rest, rfl, hline⟩ := List.eq_append_cons_of_mem hmem
      rw [lines_append hline, List.cons_append, List.cons.injEq] at h
      obtain ⟨head, tail, rfl, hhead⟩ := ih h.2
      exact ⟨line ++ '\n' :: head, tail, by simp, by rw [lines_append hline, hhead, h.1]⟩
    · have hne : text ≠ [] := by
        rintro rfl
        cases h
      have hone := h
      rw [lines_of_not_mem hmem hne, List.cons_append, List.cons.injEq, eq_comm (a := []),
        List.append_eq_nil_iff] at h
      exact ⟨text, [], (List.append_nil text).symm, by rw [hone, h.2.2, List.append_nil]⟩

/-- The numbered lines of a text around one of them. -/
theorem numberedLines_eq_append_iff {text : String} {before after : List (List Char × Nat)}
    {p : List Char × Nat} :
    numberedLines text = before ++ p :: after ↔
      ∃ head rest, lines text.toList = head ++ p.1 :: rest ∧ before = head.zipIdx 1 ∧
        p.2 = head.length + 1 ∧ after = rest.zipIdx (head.length + 2) := by
  rw [numberedLines, List.zipIdx_eq_append_iff]
  constructor
  · rintro ⟨head, tail, hlines, rfl, htail⟩
    obtain ⟨line, rest, rfl, rfl, rfl⟩ := List.zipIdx_eq_cons_iff.mp htail.symm
    exact ⟨head, rest, hlines, rfl, Nat.add_comm .., by rw [Nat.add_comm 1]⟩
  · rcases p with ⟨line, k⟩
    rintro ⟨head, rest, hlines, rfl, rfl, rfl⟩
    exact ⟨head, line :: rest, hlines, rfl, by rw [List.zipIdx_cons, Nat.add_comm 1]⟩

/-! ### Words -/

/-- A word is not empty and has no blank in it. -/
def IsWord (w : List Char) : Prop := w ≠ [] ∧ ∀ c ∈ w, isBlank c = false

theorem isWord_of_all {w : List Char} (hne : w ≠ []) (h : w.all (!isBlank ·) = true) : IsWord w :=
  ⟨hne, fun c hc => by simpa using List.all_eq_true.mp h c hc⟩

theorem wordsFrom_append {w : List Char} (h : ∀ c ∈ w, isBlank c = false) (current rest : List Char) :
    wordsFrom current (w ++ rest) = wordsFrom (w.reverse ++ current) rest := by
  induction w generalizing current with
  | nil => rfl
  | cons c w ih =>
    have hc : isBlank c = false := h c (List.mem_cons_self ..)
    have hw : ∀ d ∈ w, isBlank d = false := fun d hd => h d (List.mem_cons_of_mem c hd)
    simp [wordsFrom, hc, ih hw]

theorem words_of_isWord {w : List Char} (h : IsWord w) : words w = [w] := by
  have hw := wordsFrom_append h.2 [] []
  rw [List.append_nil, List.append_nil] at hw
  rw [words, hw]
  simp [wordsFrom, h.1]

theorem words_append_space {w : List Char} (h : IsWord w) (rest : List Char) :
    words (w ++ ' ' :: rest) = w :: words rest := by
  have hblank : isBlank ' ' = true := by decide
  rw [words, wordsFrom_append h.2]
  simp [wordsFrom, hblank, h.1, words]

/-- The line of some words, with a blank between any two. -/
def spaced : List (List Char) → List Char
  | [] => []
  | [w] => w
  | w :: v :: rest => w ++ ' ' :: spaced (v :: rest)

/-- Words with a blank between any two are read back. -/
theorem words_spaced {ws : List (List Char)} (h : ∀ w ∈ ws, IsWord w) : words (spaced ws) = ws := by
  induction ws with
  | nil => rfl
  | cons w rest ih =>
    have hw := h w (List.mem_cons_self ..)
    cases rest with
    | nil => exact words_of_isWord hw
    | cons v rest =>
      rw [spaced, words_append_space hw, ih fun u hu => h u (List.mem_cons_of_mem w hu)]

theorem mem_spaced {ws : List (List Char)} {c : Char} (h : c ∈ spaced ws) :
    c = ' ' ∨ ∃ w ∈ ws, c ∈ w := by
  induction ws with
  | nil => cases h
  | cons w rest ih =>
    cases rest with
    | nil => exact .inr ⟨w, List.mem_cons_self .., h⟩
    | cons v rest =>
      rw [spaced, List.mem_append, List.mem_cons] at h
      rcases h with h | h | h
      · exact .inr ⟨w, List.mem_cons_self .., h⟩
      · exact .inl h
      · rcases ih h with h | ⟨u, hu, h⟩
        · exact .inl h
        · exact .inr ⟨u, List.mem_cons_of_mem w hu, h⟩

/-- A line of words has no line break in it. -/
theorem no_break {ws : List (List Char)} (h : ∀ w ∈ ws, IsWord w) :
    '\n' ∉ spaced ws ∧ '\r' ∉ spaced ws := by
  have hblank : ∀ c, isBlank c = true → c ≠ ' ' → c ∉ spaced ws := by
    intro c hc hne hmem
    rcases mem_spaced hmem with he | ⟨w, hw, hcw⟩
    · exact hne he
    · rw [(h w hw).2 c hcw] at hc
      cases hc
  exact ⟨hblank _ (by decide) (by decide), hblank _ (by decide) (by decide)⟩

/-! ### Fields -/

theorem fields_of_not_mem {separator : Char} {word : List Char} (h : separator ∉ word) :
    fields separator word = [word] := by
  induction word with
  | nil => rfl
  | cons c rest ih =>
    have hc : c ≠ separator := fun e => h (e ▸ List.mem_cons_self ..)
    have hrest : separator ∉ rest := fun m => h (List.mem_cons_of_mem c m)
    simp [fields, hc, ih hrest]

theorem fields_append {separator : Char} {field : List Char} (h : separator ∉ field)
    (rest : List Char) :
    fields separator (field ++ separator :: rest) = field :: fields separator rest := by
  induction field with
  | nil => simp [fields]
  | cons c field ih =>
    have hc : c ≠ separator := fun e => h (e ▸ List.mem_cons_self ..)
    have hfield : separator ∉ field := fun m => h (List.mem_cons_of_mem c m)
    rw [List.cons_append, fields, if_neg hc, ih hfield]

/-! ### Digits -/

/-- The plain digits of a number. -/
abbrev digits (n : Nat) : List Char := Nat.toDigits 10 n

/-- A character that stands for itself in a line: no blank, separator or comment sign. -/
def IsPlain (c : Char) : Prop := isBlank c = false ∧ c ≠ '#' ∧ c ≠ ':'

theorem isPlain_of_isDigit {c : Char} (h : c.isDigit = true) : IsPlain c := by
  have hrange : 48 ≤ c.toNat ∧ c.toNat ≤ 57 := by
    simpa [Char.isDigit, Char.le_def, UInt32.le_iff_toNat_le] using h
  refine ⟨?_, ?_, ?_⟩
  · simp only [isBlank, blankRanges, List.any_cons, List.any_nil, Bool.or_false, Bool.or_eq_false_iff,
      Bool.and_eq_false_iff, decide_eq_false_iff_not]
    omega
  · rintro rfl
    simp at hrange
  · rintro rfl
    simp at hrange

theorem isPlain_digits {n : Nat} : ∀ c ∈ digits n, IsPlain c := fun c hc =>
  isPlain_of_isDigit (Nat.isDigit_of_mem_toDigits (by decide) (by decide) hc)

/-- Only digits are among the digits of a number. -/
theorem not_mem_digits_of_isDigit {c : Char} (h : c.isDigit = false) (n : Nat) : c ∉ digits n :=
  fun hc => by
    rw [Nat.isDigit_of_mem_toDigits (by decide) (by decide) hc] at h
    cases h

theorem digits_ne_nil (n : Nat) : digits n ≠ [] := Nat.toDigits_ne_nil

theorem isWord_digits (n : Nat) : IsWord (digits n) :=
  ⟨digits_ne_nil n, fun c hc => (isPlain_digits c hc).1⟩

end GateNet.Text
