import GateNet.Circuit.Basic

/-!
The gates of a circuit in the order of their evaluation: each gate that is filed under some wire, once,
by ascending wire.
-/

namespace GateNet.Circuit

/-- The values of a map are listed in the order of their keys. -/
theorem values_eq (t : Std.ExtTreeMap Nat Gate) : t.values = t.toList.map Prod.snd := by
  rcases t with ⟨⟨q⟩⟩
  induction q using Quotient.inductionOn with
  | _ t =>
    show t.inner.values = (Std.DTreeMap.Internal.Impl.Const.toList t.inner).map Prod.snd
    rw [Std.DTreeMap.Internal.Impl.values_eq_map_snd,
      Std.DTreeMap.Internal.Impl.Const.toList_eq_toListModel_map]
    simp

variable {c : Circuit} {g : Gate}

theorem mem_gateList : g ∈ c.gateList ↔ ∃ w, c.gate? w = some g := by
  rw [gateList, values_eq, List.mem_map]
  constructor
  · rintro ⟨⟨w, g'⟩, hw, rfl⟩
    exact ⟨w, Std.ExtTreeMap.mem_toList_iff_getElem?_eq_some.mp hw⟩
  · rintro ⟨w, hw⟩
    exact ⟨(w, g), Std.ExtTreeMap.mem_toList_iff_getElem?_eq_some.mpr hw, rfl⟩

theorem isGateOutput_eq (c : Circuit) (w : Nat) : c.isGateOutput w = (c.gate? w).isSome :=
  Std.ExtTreeMap.contains_eq_isSome_getElem?

/-- If each gate is filed under its output, gates are evaluated by ascending output. -/
theorem gateList_sorted (h : ∀ w g, c.gate? w = some g → g.out = w) :
    c.gateList.Pairwise (·.out < ·.out) := by
  rw [gateList, values_eq, List.pairwise_map]
  refine Std.ExtTreeMap.ordered_keys_toList.imp_of_mem ?_
  intro p q hp hq hlt
  rw [h p.1 p.2 (Std.ExtTreeMap.mem_toList_iff_getElem?_eq_some.mp hp),
    h q.1 q.2 (Std.ExtTreeMap.mem_toList_iff_getElem?_eq_some.mp hq)]
  exact Nat.compare_eq_lt.mp hlt

theorem gateList_nodup (h : ∀ w g, c.gate? w = some g → g.out = w) : c.gateList.Nodup := by
  apply (gateList_sorted h).imp
  intro g k hlt he
  rw [he] at hlt
  exact Nat.lt_irrefl _ hlt

theorem length_gateList (c : Circuit) : c.gateList.length = c.numGates := by
  rw [gateList, values_eq, List.length_map, Std.ExtTreeMap.length_toList, numGates]

end GateNet.Circuit
