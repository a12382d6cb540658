import GateNet.Wire.Store

/-!
Three views of a wire store: the raw value of a wire, its polarity, and the value that its readers
see. A store is determined by the first two, and the third is the first under the second; so what an
operation does to a store is said by what it does to the views, and a write touches one raw value.
-/

namespace GateNet.WireStore

/-- The raw value of a wire, if the wire is registered and its value known. -/
def raw? (s : WireStore) (w : Nat) : Option Bool := s.cells[w]?.bind (·.value)

/-- The polarity of a wire, if the wire is registered. -/
def polarity? (s : WireStore) (w : Nat) : Option Polarity := s.cells[w]?.map (·.polarity)

/-- The value that the readers of a wire see, if it is known. -/
def seen? (s : WireStore) (w : Nat) : Option Bool := s.cells[w]?.bind Cell.effective

/-- Register a wire in the plain polarity unless it is registered already. -/
def ensure (s : WireStore) (w : Nat) : WireStore :=
  if s.contains w then s else s.put w ⟨none, ⟨false, false⟩⟩

/-- Give a wire a polarity; a wire that is not registered stays so. -/
def turn (s : WireStore) (w : Nat) (p : Polarity) : WireStore :=
  match s.cells[w]? with
  | some c => s.put w { c with polarity := p }
  | none => s

/-- Write the raw value of a wire; a wire that is not registered stays so. -/
def write (s : WireStore) (w : Nat) (value : Bool) : WireStore :=
  match s.cells[w]? with
  | some c => s.put w { c with value := some value }
  | none => s

variable {s t : WireStore}

theorem contains_eq_isSome (s : WireStore) (w : Nat) : s.contains w = s.cells[w]?.isSome :=
  Std.ExtTreeMap.contains_eq_isSome_getElem?

theorem contains_eq (s : WireStore) (w : Nat) : s.contains w = (s.polarity? w).isSome := by
  rw [contains_eq_isSome, polarity?, Option.isSome_map]

theorem contains_iff {w : Nat} : s.contains w = true ↔ ∃ c, s.cells[w]? = some c := by
  rw [contains_eq_isSome, Option.isSome_iff_exists]

theorem contains_of_polarity? {w : Nat} {p : Polarity} (h : s.polarity? w = some p) :
    s.contains w = true := by
  rw [contains_eq, h]; rfl

theorem seen?_eq (s : WireStore) (w : Nat) :
    s.seen? w = (s.polarity? w).bind fun p => (s.raw? w).map p.resolve := by
  cases h : s.cells[w]? <;> simp [seen?, polarity?, raw?, Cell.effective, h]

/-- Readers see a value where there is one. -/
theorem seen?_eq_none_iff {w : Nat} : s.seen? w = none ↔ s.raw? w = none := by
  cases h : s.cells[w]? <;> simp [seen?, raw?, Cell.effective, h]

theorem raw?_of_seen? {w : Nat} {x : Bool} (h : s.seen? w = some x) : s.raw? w ≠ none := by
  rw [Ne, ← seen?_eq_none_iff, h]
  exact Option.some_ne_none x

theorem contains_of_seen? {w : Nat} {x : Bool} (h : s.seen? w = some x) : s.contains w = true := by
  obtain ⟨c, hc, -⟩ := Option.bind_eq_some_iff.mp h
  exact contains_iff.mpr ⟨c, hc⟩

/-- A store is determined by its raw values and its polarities. -/
theorem ext_views (hr : ∀ w, s.raw? w = t.raw? w) (hp : ∀ w, s.polarity? w = t.polarity? w) :
    s = t := by
  apply WireStore.ext
  apply Std.ExtTreeMap.ext_getElem?
  intro w
  have hr := hr w
  have hp := hp w
  rw [raw?, raw?] at hr
  rw [polarity?, polarity?] at hp
  match hs : s.cells[w]?, ht : t.cells[w]? with
  | none, none => rfl
  | none, some d => simp [hs, ht] at hp
  | some c, none => simp [hs, ht] at hp
  | some ⟨v, p⟩, some ⟨v', p'⟩ => simp_all

/-- Readers see one value where raw value and polarity are the same. -/
theorem seen?_congr {w : Nat} (hr : s.raw? w = t.raw? w) (hp : s.polarity? w = t.polarity? w) :
    s.seen? w = t.seen? w := by
  rw [seen?_eq, seen?_eq, hr, hp]

/-- Readers see a raw value under the polarity, whether that was turned or not. -/
theorem seen?_congr_inverted {w : Nat} (hr : s.raw? w = t.raw? w)
    (hp : (s.polarity? w).map (·.inverted) = (t.polarity? w).map (·.inverted)) :
    s.seen? w = t.seen? w := by
  rw [seen?_eq, seen?_eq, hr]
  match hs : s.polarity? w, ht : t.polarity? w with
  | none, none => rfl
  | none, some q => simp [hs, ht] at hp
  | some p, none => simp [hs, ht] at hp
  | some p, some q =>
    have hi : p.inverted = q.inverted := by simpa [hs, ht] using hp
    have hresolve : p.resolve = q.resolve := funext fun x => by rw [Polarity.resolve, Polarity.resolve, hi]
    rw [Option.bind_some, Option.bind_some, hresolve]

theorem keys_nodup (s : WireStore) : s.cells.keys.Nodup :=
  Std.ExtTreeMap.ordered_keys.imp fun hlt he => by
    rw [he] at hlt
    simp at hlt

theorem mem_keys {w : Nat} : w ∈ s.cells.keys ↔ s.contains w = true := by
  rw [Std.ExtTreeMap.mem_keys]
  exact Std.ExtTreeMap.mem_iff_contains

/-- A store that registers the wires of a list registers so many. -/
theorem size_eq_length {ws : List Nat} (hn : ws.Nodup) (h : ∀ w, s.contains w = true ↔ w ∈ ws) :
    s.size = ws.length := by
  have hperm : s.cells.keys.Perm ws :=
    (List.perm_ext_iff_of_nodup s.keys_nodup hn).mpr fun w => mem_keys.trans (h w)
  rw [size, ← Std.ExtTreeMap.length_keys, hperm.length_eq]

theorem size_eq {n : Nat} (h : ∀ w, s.contains w = true ↔ w < n) : s.size = n := by
  rw [size_eq_length List.nodup_range fun w => (h w).trans List.mem_range.symm, List.length_range]

theorem size_congr (h : ∀ w, s.contains w = true ↔ t.contains w = true) : s.size = t.size := by
  rw [size_eq_length t.keys_nodup fun w => (h w).trans mem_keys.symm, Std.ExtTreeMap.length_keys, size]

/-! ### The operations in terms of the views -/

theorem effective_eq (s : WireStore) (w : Nat) :
    s.effective w = if s.contains w then .ok (s.seen? w) else .error (.notFound w) := by
  cases h : s.cells[w]? <;>
    simp [effective, cell, seen?, contains_eq_isSome, h, bind, Except.bind, pure, Except.pure]

theorem setValue_eq (s : WireStore) (w : Nat) (value : Bool) :
    s.setValue w value = if s.contains w then .ok (s.write w value) else .error (.notFound w) := by
  cases h : s.cells[w]? <;>
    simp [setValue, cell, write, contains_eq_isSome, h, bind, Except.bind, pure, Except.pure]

theorem effective_ok_iff {w : Nat} {x : Option Bool} :
    s.effective w = .ok x ↔ s.contains w = true ∧ x = s.seen? w := by
  rw [effective_eq]
  cases s.contains w <;> simp [eq_comm]

theorem setValue_ok_iff {w : Nat} {value : Bool} :
    s.setValue w value = .ok t ↔ s.contains w = true ∧ t = s.write w value := by
  rw [setValue_eq]
  cases s.contains w <;> simp [eq_comm]

@[simp] theorem polarity?_write (s : WireStore) (w v : Nat) (value : Bool) :
    (s.write w value).polarity? v = s.polarity? v := by
  cases h : s.cells[w]? with
  | none => simp [write, h]
  | some c =>
    by_cases hv : w = v
    · subst hv; simp [write, polarity?, getElem?_put, h]
    · simp [write, polarity?, getElem?_put, h, hv]

@[simp] theorem contains_write (s : WireStore) (w v : Nat) (value : Bool) :
    (s.write w value).contains v = s.contains v := by
  rw [contains_eq, contains_eq, polarity?_write]

theorem raw?_write_self {w : Nat} (h : s.contains w = true) (value : Bool) :
    (s.write w value).raw? w = some value := by
  obtain ⟨c, hc⟩ := contains_iff.mp h
  simp [write, raw?, getElem?_put, hc]

theorem raw?_write_of_ne {w v : Nat} (h : w ≠ v) (value : Bool) :
    (s.write w value).raw? v = s.raw? v := by
  cases hc : s.cells[w]? <;> simp [write, raw?, getElem?_put, hc, h]

theorem seen?_write_of_ne {w v : Nat} (h : w ≠ v) (value : Bool) :
    (s.write w value).seen? v = s.seen? v :=
  seen?_congr (raw?_write_of_ne h value) (polarity?_write s w v value)

/-- Writing what is there already changes nothing. -/
theorem write_of_raw? {w : Nat} {value : Bool} (h : s.raw? w = some value) :
    s.write w value = s := by
  obtain ⟨c, hc, -⟩ := Option.bind_eq_some_iff.mp h
  apply ext_views
  · intro v
    by_cases hv : w = v
    · rw [← hv, raw?_write_self (contains_iff.mpr ⟨c, hc⟩), h]
    · exact raw?_write_of_ne hv value
  · exact fun v => polarity?_write s w v value

/-! ### Registering wires and turning them -/

theorem raw?_put (s : WireStore) (w v : Nat) (c : Cell) :
    (s.put w c).raw? v = if w = v then c.value else s.raw? v := by
  rw [raw?, raw?, getElem?_put]
  split <;> rfl

theorem polarity?_put (s : WireStore) (w v : Nat) (c : Cell) :
    (s.put w c).polarity? v = if w = v then some c.polarity else s.polarity? v := by
  rw [polarity?, polarity?, getElem?_put]
  split <;> rfl

theorem polarity?_of_not_contains {w : Nat} (h : s.contains w = false) : s.polarity? w = none := by
  rwa [contains_eq, Option.isSome_eq_false_iff, Option.isNone_iff_eq_none] at h

theorem raw?_of_not_contains {w : Nat} (h : s.contains w = false) : s.raw? w = none := by
  rw [contains_eq_isSome, Option.isSome_eq_false_iff, Option.isNone_iff_eq_none] at h
  rw [raw?, h, Option.bind_none]

@[simp] theorem raw?_ensure (s : WireStore) (w v : Nat) : (s.ensure w).raw? v = s.raw? v := by
  cases h : s.contains w with
  | true => simp [ensure, h]
  | false =>
    simp only [ensure, h, Bool.false_eq_true, if_false, raw?_put]
    split
    · rename_i hv
      rw [← hv, raw?_of_not_contains h]
    · rfl

theorem polarity?_ensure (s : WireStore) (w v : Nat) :
    (s.ensure w).polarity? v =
      if w = v then some ((s.polarity? w).getD ⟨false, false⟩) else s.polarity? v := by
  cases h : s.contains w with
  | true =>
    obtain ⟨p, hp⟩ := Option.isSome_iff_exists.mp (contains_eq s w ▸ h)
    simp only [ensure, h, if_true, hp, Option.getD_some]
    split
    · rename_i hv
      rw [← hv, hp]
    · rfl
  | false =>
    simp only [ensure, h, Bool.false_eq_true, if_false, polarity?_put,
      polarity?_of_not_contains h, Option.getD_none]

theorem contains_ensure (s : WireStore) (w v : Nat) :
    (s.ensure w).contains v = true ↔ v = w ∨ s.contains v = true := by
  rw [contains_eq, polarity?_ensure, contains_eq]
  by_cases h : w = v
  · simp [h]
  · have : v ≠ w := fun e => h e.symm
    simp [h, this]

theorem contains_put (s : WireStore) (w v : Nat) (c : Cell) :
    (s.put w c).contains v = true ↔ v = w ∨ s.contains v = true := by
  rw [contains_eq, polarity?_put, contains_eq]
  by_cases h : w = v
  · simp [h]
  · have : v ≠ w := fun e => h e.symm
    simp [h, this]

@[simp] theorem raw?_turn (s : WireStore) (w v : Nat) (p : Polarity) :
    (s.turn w p).raw? v = s.raw? v := by
  cases h : s.cells[w]? with
  | none => simp [turn, h]
  | some c =>
    by_cases hv : w = v
    · subst hv
      simp only [turn, h, raw?_put, if_true]
      simp only [raw?, h, Option.bind_some]
    · simp [turn, h, raw?_put, hv]

theorem polarity?_turn {w : Nat} (h : s.contains w = true) (v : Nat) (p : Polarity) :
    (s.turn w p).polarity? v = if w = v then some p else s.polarity? v := by
  obtain ⟨c, hc⟩ := contains_iff.mp h
  simp only [turn, hc, polarity?_put]

@[simp] theorem contains_turn (s : WireStore) (w v : Nat) (p : Polarity) :
    (s.turn w p).contains v = s.contains v := by
  cases h : s.contains w with
  | true =>
    rw [contains_eq, polarity?_turn h, contains_eq]
    split
    · rename_i hv
      rw [← hv, ← contains_eq, h, Option.isSome_some]
    · rfl
  | false =>
    rw [contains_eq_isSome, Option.isSome_eq_false_iff, Option.isNone_iff_eq_none] at h
    simp only [turn, h]

/-- A wire that has the polarity already is not turned. -/
theorem turn_of_polarity? {w : Nat} {p : Polarity} (h : s.polarity? w = some p) :
    s.turn w p = s := by
  apply ext_views
  · exact fun v => raw?_turn s w v p
  · intro v
    rw [polarity?_turn (contains_of_polarity? h)]
    split
    · rename_i hv
      rw [← hv, h]
    · rfl

theorem flip_ok_iff {w : Nat} {p : Polarity} (h : s.polarity? w = some p) :
    s.flip w = .ok t ↔ p.flipped = false ∧ t = s.turn w ⟨!p.inverted, true⟩ := by
  obtain ⟨c, hc, rfl⟩ := Option.map_eq_some_iff.mp h
  cases hf : c.polarity.flipped with
  | true => simp [flip, cell, hc, Polarity.flip, hf, bind, Except.bind]
  | false =>
    simp [flip, cell, hc, Polarity.flip, hf, turn, bind, Except.bind, pure, Except.pure, eq_comm]

theorem flip_error {w : Nat} {p : Polarity} (h : s.polarity? w = some p) (hf : p.flipped = true) :
    s.flip w = .error (.doubleInversion w) := by
  obtain ⟨c, hc, rfl⟩ := Option.map_eq_some_iff.mp h
  simp [flip, cell, hc, Polarity.flip, hf, bind, Except.bind]

end GateNet.WireStore
