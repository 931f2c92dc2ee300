import Mathlib.Data.List.Nodup
import Mathlib.Logic.Function.Basic

/-! A table in order of insertion with an index from keys to positions, as a vector beside a hash
map.  `Wf` says that the two agree; under it the table is a map from keys to entries. -/

namespace NetDebugger.Lib

structure Indexed (κ α : Type*) where
  items : List α
  index : κ → Option Nat

namespace Indexed

variable {κ α : Type*}

def empty : Indexed κ α := ⟨[], fun _ => none⟩

def find (t : Indexed κ α) (k : κ) : Option α := (t.index k).bind (t.items[·]?)

/-- The position of the key's entry, appended as `new` where there is none. -/
def ensure [DecidableEq κ] (t : Indexed κ α) (k : κ) (new : α) : Indexed κ α × Nat :=
  match t.index k with
  | some i => (t, i)
  | none => (⟨t.items ++ [new], Function.update t.index k (some t.items.length)⟩, t.items.length)

def modify (t : Indexed κ α) (i : Nat) (g : α → α) : Indexed κ α :=
  { t with items := t.items.modify i g }

/-- Only the entry itself matters to a change of it. -/
theorem modify_congr {t : Indexed κ α} {i : Nat} {g g' : α → α}
    (h : ∀ a, t.items[i]? = some a → g a = g' a) : t.modify i g = t.modify i g' := by
  have hitems : t.items.modify i g = t.items.modify i g' := by
    refine List.ext_getElem? fun j => ?_
    rw [List.getElem?_modify, List.getElem?_modify]
    by_cases hij : i = j
    · subst hij
      cases hget : t.items[i]? with
      | none => rfl
      | some a => simp [h a hget]
    · simp [hij]
  rw [modify, modify, hitems]

/-- The index and the entries' own keys agree. -/
structure Wf (key : α → κ) (t : Indexed κ α) : Prop where
  found : ∀ k i, t.index k = some i → ∃ a, t.items[i]? = some a ∧ key a = k
  indexed : ∀ i a, t.items[i]? = some a → t.index (key a) = some i

variable {key : α → κ}

theorem wf_empty : Wf key (empty : Indexed κ α) := by
  constructor
  · intro k i h
    cases h
  · intro i a h
    cases h

theorem Wf.key_of_find {t : Indexed κ α} (h : t.Wf key) {k : κ} {a : α} (hf : t.find k = some a) :
    key a = k := by
  obtain ⟨i, hi, ha⟩ := Option.bind_eq_some_iff.mp hf
  obtain ⟨b, hb, hk⟩ := h.found k i hi
  obtain rfl := Option.some.inj (ha.symm.trans hb)
  exact hk

/-- The entries are the values of the map. -/
theorem Wf.mem_items {t : Indexed κ α} (h : t.Wf key) {a : α} :
    a ∈ t.items ↔ t.find (key a) = some a := by
  constructor
  · intro ha
    obtain ⟨i, hi⟩ := List.mem_iff_getElem?.mp ha
    rw [find, h.indexed i a hi]
    exact hi
  · intro hf
    obtain ⟨i, -, ha⟩ := Option.bind_eq_some_iff.mp hf
    exact List.mem_iff_getElem?.mpr ⟨i, ha⟩

/-- No key has two entries. -/
theorem Wf.nodup {t : Indexed κ α} (h : t.Wf key) : (t.items.map key).Nodup := by
  rw [List.nodup_iff_injective_get]
  intro i j hij
  have hentry : ∀ l : Fin (t.items.map key).length,
      t.index ((t.items.map key).get l) = some l.1 := by
    intro l
    have hl : l.1 < t.items.length := by simpa using l.2
    have hindex := h.indexed l.1 t.items[l.1] (List.getElem?_eq_getElem hl)
    simpa using hindex
  have hi := hentry i
  rw [hij, hentry j] at hi
  exact Fin.ext (Option.some.inj hi).symm

theorem Wf.mem_keys {t : Indexed κ α} (h : t.Wf key) {k : κ} (hk : (t.find k).isSome) :
    k ∈ t.items.map key := by
  obtain ⟨a, ha⟩ := Option.isSome_iff_exists.mp hk
  obtain rfl := h.key_of_find ha
  exact List.mem_map_of_mem (h.mem_items.mpr ha)

theorem Wf.modify {t : Indexed κ α} (h : t.Wf key) (i : Nat) {g : α → α}
    (hg : ∀ a, key (g a) = key a) : (t.modify i g).Wf key := by
  have hget : ∀ j, (t.modify i g).items[j]? = (t.items[j]?).map (if i = j then g else id) := by
    intro j
    simp only [Indexed.modify, List.getElem?_modify]
    by_cases hij : i = j
    · simp [hij]
    · simp [hij]
  have hkey : ∀ j a, key ((if i = j then g else id) a) = key a := by
    intro j a
    by_cases hij : i = j
    · simp [hij, hg]
    · simp [hij]
  constructor
  · intro k j hj
    obtain ⟨a, ha, hk⟩ := h.found k j hj
    refine ⟨_, by rw [hget, ha]; rfl, ?_⟩
    rw [hkey]
    exact hk
  · intro j b hb
    rw [hget] at hb
    obtain ⟨a, ha, rfl⟩ := Option.map_eq_some_iff.mp hb
    rw [hkey]
    exact h.indexed j a ha

variable [DecidableEq κ]

/-- `ensure` is an insertion of `new` under a new key, and gives the entry's position. -/
theorem Wf.ensure {t : Indexed κ α} (h : t.Wf key) {k : κ} {new : α} (hnew : key new = k) :
    (t.ensure k new).1.Wf key ∧ (t.ensure k new).1.index k = some (t.ensure k new).2 ∧
      ∀ k', (t.ensure k new).1.find k' =
        if k' = k then some ((t.find k).getD new) else t.find k' := by
  cases hk : t.index k with
  | some i =>
    have hensure : t.ensure k new = (t, i) := by simp only [Indexed.ensure, hk]
    obtain ⟨a, ha, -⟩ := h.found k i hk
    rw [hensure]
    refine ⟨h, hk, fun k' => ?_⟩
    by_cases heq : k' = k
    · simp [heq, find, hk, ha]
    · simp [heq]
  | none =>
    have hlt : ∀ k' i, t.index k' = some i → i < t.items.length := by
      intro k' i hi
      obtain ⟨a, ha, -⟩ := h.found k' i hi
      exact (List.getElem?_eq_some_iff.mp ha).1
    have hother : ∀ a ∈ t.items, key a ≠ k := by
      intro a ha heq
      obtain ⟨i, hi⟩ := List.mem_iff_getElem?.mp ha
      have hindex := h.indexed i a hi
      rw [heq, hk] at hindex
      cases hindex
    have hensure : t.ensure k new = (⟨t.items ++ [new],
        Function.update t.index k (some t.items.length)⟩, t.items.length) := by
      simp only [Indexed.ensure, hk]
    rw [hensure]
    refine ⟨⟨?_, ?_⟩, Function.update_self .., fun k' => ?_⟩
    · intro k' i hi
      simp only at hi ⊢
      by_cases heq : k' = k
      · subst heq
        simp only [Function.update_self, Option.some.injEq] at hi
        exact ⟨new, by simp [← hi], hnew⟩
      · rw [Function.update_of_ne heq] at hi
        obtain ⟨a, ha, hkey⟩ := h.found k' i hi
        exact ⟨a, by rw [List.getElem?_append_left (hlt k' i hi), ha], hkey⟩
    · intro i a ha
      simp only at ha ⊢
      by_cases hi : i < t.items.length
      · rw [List.getElem?_append_left hi] at ha
        rw [Function.update_of_ne (hother a (List.mem_iff_getElem?.mpr ⟨i, ha⟩))]
        exact h.indexed i a ha
      · rw [List.getElem?_append_right (by omega)] at ha
        obtain ⟨hi', rfl⟩ := List.getElem?_eq_some_iff.mp ha
        simp only [List.length_singleton] at hi'
        rw [List.getElem_singleton, hnew, Function.update_self]
        exact congrArg some (by omega)
    · by_cases heq : k' = k
      · subst heq
        simp [find, hk]
      · rw [if_neg heq, find, find]
        simp only [Function.update_of_ne heq]
        cases hi : t.index k' with
        | none => rfl
        | some i => simp [List.getElem?_append_left (hlt k' i hi)]

/-- Getting or creating an entry and then changing it in place. -/
theorem Wf.update {t : Indexed κ α} (h : t.Wf key) {k : κ} {new : α} (hnew : key new = k)
    {g : α → α} (hg : ∀ a, key (g a) = key a) :
    let e := t.ensure k new
    (e.1.modify e.2 g).Wf key ∧ ∀ k', (e.1.modify e.2 g).find k' =
      if k' = k then some (g ((t.find k).getD new)) else t.find k' := by
  intro e
  obtain ⟨hwf, hindex, hfind⟩ := h.ensure hnew
  refine ⟨hwf.modify _ hg, fun k' => ?_⟩
  have hget : (e.1.modify e.2 g).find k' =
      (e.1.index k').bind fun j => (e.1.items[j]?).map (if e.2 = j then g else id) := by
    rw [find]
    congr 1
    funext j
    simp only [Indexed.modify, List.getElem?_modify]
    by_cases hij : e.2 = j
    · simp [hij]
    · simp [hij]
  by_cases heq : k' = k
  · subst heq
    have hold := hfind k'
    rw [if_pos rfl, find, hindex] at hold
    rw [if_pos rfl, hget, hindex]
    simp only [Option.bind_some] at hold ⊢
    rw [hold, if_pos rfl]
    rfl
  · have hold := hfind k'
    rw [if_neg heq] at hold
    rw [if_neg heq, hget, ← hold, find]
    cases hj : e.1.index k' with
    | none => rfl
    | some j =>
      have hne : e.2 ≠ j := by
        intro hej
        obtain ⟨a, ha, hka⟩ := hwf.found k' j hj
        obtain ⟨b, hb, hkb⟩ := hwf.found k e.2 hindex
        rw [hej, ha] at hb
        obtain rfl := Option.some.inj hb
        exact heq (hka.symm.trans hkb)
      simp only [Option.bind_some, if_neg hne, Option.map_id_fun, id]
      rfl

end Indexed

end NetDebugger.Lib
