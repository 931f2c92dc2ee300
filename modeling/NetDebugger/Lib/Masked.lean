import Mathlib.Data.List.Basic

/-! Lists that are equal but for the entries at some places. -/

namespace NetDebugger.Lib

variable {α : Type*}

/-- The lists have one length, and differ at hidden places only. -/
structure SameBut (hidden : Nat → Prop) (xs ys : List α) : Prop where
  length : xs.length = ys.length
  same : ∀ i, ¬hidden i → xs[i]? = ys[i]?

theorem SameBut.refl (hidden : Nat → Prop) (xs : List α) : SameBut hidden xs xs :=
  ⟨rfl, fun _ _ => rfl⟩

/-- Lists that lie at hidden places. -/
theorem SameBut.of_hidden {hidden : Nat → Prop} {xs ys : List α} (hlen : xs.length = ys.length)
    (h : ∀ i < xs.length, hidden i) : SameBut hidden xs ys := by
  refine ⟨hlen, fun i hi => ?_⟩
  have hout : xs.length ≤ i := Nat.le_of_not_lt fun hlt => hi (h i hlt)
  rw [List.getElem?_eq_none hout, List.getElem?_eq_none (hlen ▸ hout)]

theorem SameBut.append {hidden : Nat → Prop} {xs ys us vs : List α} (h : SameBut hidden xs ys)
    (h' : SameBut (fun i => hidden (xs.length + i)) us vs) :
    SameBut hidden (xs ++ us) (ys ++ vs) := by
  constructor
  · rw [List.length_append, List.length_append, h.length, h'.length]
  · intro i hi
    by_cases hlt : i < xs.length
    · rw [List.getElem?_append_left hlt, List.getElem?_append_left (h.length ▸ hlt), h.same i hi]
    · have hge := Nat.le_of_not_lt hlt
      have hsame := h'.same (i - xs.length)
      rw [Nat.add_sub_cancel' hge] at hsame
      rw [List.getElem?_append_right hge, List.getElem?_append_right (h.length ▸ hge), hsame hi,
        h.length]

end NetDebugger.Lib
