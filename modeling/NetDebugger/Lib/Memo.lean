import Mathlib.Data.Option.Basic

/-! A cell that keeps the last result of a computation with a key of its input, and computes again
only when the key differs.  The inputs grow with time; now and then they are replaced by others.
As long as they only grow, an input with the key of the last one is the last one, and the cell is
as good as a new computation. After a replacement it is so exactly when the result is the same. -/

namespace NetDebugger.Lib

structure Memo (κ ν : Type*) where
  key : κ
  value : ν

/-- What the cell was last computed from, and whether inputs were replaced since. -/
structure Watch (ι : Type*) where
  last : Option ι
  replaced : Bool

def Watch.none {ι : Type*} : Watch ι := ⟨.none, false⟩

def Watch.replace {ι : Type*} (w : Watch ι) : Watch ι := { w with replaced := true }

namespace Memo

variable {ι κ ν : Type*} (key : ι → κ) (compute : ι → Option ν)
  (Grown : ι → ι → Prop) (unused : κ)

def refresh [DecidableEq κ] (c : Memo κ ν) (x : ι) : Option (Memo κ ν) :=
  if key x ≠ c.key then (compute x).map fun value => ⟨key x, value⟩ else some c

def watch [DecidableEq κ] (w : Watch ι) (c : Memo κ ν) (x : ι) : Watch ι :=
  if key x ≠ c.key then ⟨some x, false⟩ else w

/-- The input was not replaced by one with the same key and another result. -/
def Unharmed (c : Memo κ ν) (w : Watch ι) (x : ι) : Prop :=
  w.replaced = true → key x = c.key → ∀ y ∈ w.last, compute y = compute x

/-- What is there at a time: nothing has the unused key, and where something has grown from `x`,
nothing but `x` itself has the key of `x`. -/
structure Keyed (Present : ι → Prop) : Prop where
  used : ∀ x, Present x → key x ≠ unused
  only : ∀ x y z, Grown x y → Present y → Present z → key z = key x → z = x

/-- The cell holds the result of the last input, which is still growing if nothing was replaced. -/
structure Sound (Present : ι → Prop) (c : Memo κ ν) (w : Watch ι) : Prop where
  started : w.last = .none → c.key = unused
  computed : ∀ x ∈ w.last, c.key = key x ∧ compute x = some c.value
  current : w.replaced = false → ∀ x ∈ w.last, ∃ y, Present y ∧ Grown x y

variable {key compute Grown unused} {Present Present' : ι → Prop} {c c' : Memo κ ν} {w : Watch ι}

theorem sound_unused (value : ν) : Sound key compute Grown unused Present ⟨unused, value⟩ .none :=
  ⟨fun _ => rfl, nofun, nofun⟩

variable (key) in
theorem refresh_total [DecidableEq κ] (c : Memo κ ν) {x : ι} (h : ∃ value, compute x = some value) :
    ∃ c', c.refresh key compute x = some c' := by
  obtain ⟨value, hvalue⟩ := h
  rw [Memo.refresh]
  split
  · exact ⟨_, by rw [hvalue]; rfl⟩
  · exact ⟨c, rfl⟩

theorem Sound.refresh [DecidableEq κ] (h : Sound key compute Grown unused Present c w)
    (hrefl : ∀ x, Grown x x) {x : ι} (hx : Present x) (hc : c.refresh key compute x = some c') :
    Sound key compute Grown unused Present c' (watch key w c x) := by
  rw [Memo.refresh] at hc
  rw [watch]
  by_cases hkey : key x = c.key
  · rw [if_neg (not_not.mpr hkey)] at hc ⊢
    exact Option.some.inj hc ▸ h
  · rw [if_pos hkey] at hc ⊢
    obtain ⟨value, hvalue, rfl⟩ := Option.map_eq_some_iff.mp hc
    refine ⟨nofun, fun y hy => ?_, fun _ y hy => ?_⟩
    · obtain rfl := Option.some.inj hy
      exact ⟨rfl, hvalue⟩
    · obtain rfl := Option.some.inj hy
      exact ⟨x, hx, hrefl x⟩

theorem Sound.grow (h : Sound key compute Grown unused Present c w)
    (htrans : ∀ x y z, Grown x y → Grown y z → Grown x z)
    (hgrow : ∀ x, Present x → ∃ y, Present' y ∧ Grown x y) :
    Sound key compute Grown unused Present' c w := by
  refine ⟨h.started, h.computed, fun hreplaced x hx => ?_⟩
  obtain ⟨y, hy, hxy⟩ := h.current hreplaced x hx
  obtain ⟨z, hz, hyz⟩ := hgrow y hy
  exact ⟨z, hz, htrans x y z hxy hyz⟩

theorem Sound.replace (h : Sound key compute Grown unused Present c w) (Present' : ι → Prop) :
    Sound key compute Grown unused Present' c w.replace :=
  ⟨h.started, h.computed, nofun⟩

/-- A refreshed cell agrees with a new computation exactly where the input is unharmed. -/
theorem Sound.agrees_iff [DecidableEq κ] (h : Sound key compute Grown unused Present c w)
    (hkeyed : Keyed key Grown unused Present) {x : ι} (hx : Present x)
    (hc : c.refresh key compute x = some c') :
    compute x = some c'.value ↔ Unharmed key compute c w x := by
  rw [Memo.refresh] at hc
  by_cases hkey : key x = c.key
  · rw [if_neg (not_not.mpr hkey)] at hc
    obtain rfl := Option.some.inj hc
    obtain ⟨y, hy⟩ : ∃ y, w.last = some y := by
      cases hlast : w.last with
      | none => exact absurd (hkey.trans (h.started hlast)) (hkeyed.used x hx)
      | some y => exact ⟨y, rfl⟩
    obtain ⟨hykey, hyvalue⟩ := h.computed y hy
    constructor
    · intro hvalue _ _ z hz
      obtain rfl := Option.some.inj (hy.symm.trans hz)
      exact hyvalue.trans hvalue.symm
    · intro hun
      cases hreplaced : w.replaced with
      | true => exact (hun hreplaced hkey y hy).symm.trans hyvalue
      | false =>
        obtain ⟨z, hz, hyz⟩ := h.current hreplaced y hy
        rw [hkeyed.only y z x hyz hz hx (hkey.trans hykey)]
        exact hyvalue
  · rw [if_pos hkey] at hc
    obtain ⟨value, hvalue, rfl⟩ := Option.map_eq_some_iff.mp hc
    exact iff_of_true hvalue fun _ hsame => absurd hsame hkey

end Memo

end NetDebugger.Lib
