import Mathlib.Data.UInt

/-! A counter of 64 bits that is read as differences.  A reader marks the count it has seen and
takes the difference to the next one; the counter may be reset behind its back.  The difference is
what was added since the mark or the reset exactly where a reset finds the mark at zero, and the
counter does not pass 2^64. -/

namespace NetDebugger.Lib

/-- The counter has grown by `n` since the mark, or since a reset that came after it. -/
def Metered (mark count : UInt64) (reset : Bool) (n : Nat) : Prop :=
  count.toNat = ((if reset then 0 else mark.toNat) + n) % 2 ^ 64

/-- The difference does not wrap, and it is what was added. -/
def Delta (mark count : UInt64) (n : Nat) : Prop := mark ≤ count ∧ (count - mark).toNat = n

/-- The mark is one of the counter's own, and the counter has not come round since. -/
def Ahead (mark : UInt64) (reset : Bool) (n : Nat) : Prop :=
  (reset = true → mark = 0) ∧ mark.toNat + n < 2 ^ 64

namespace Metered

theorem marked (count : UInt64) : Metered count count false 0 := by
  rw [Metered, if_neg Bool.false_ne_true, Nat.add_zero, Nat.mod_eq_of_lt count.toNat_lt]

theorem cleared (mark : UInt64) : Metered mark 0 true 0 := rfl

variable {mark count : UInt64} {reset : Bool} {n : Nat}

theorem add (h : Metered mark count reset n) (k : Nat) :
    Metered mark (count + UInt64.ofNat k) reset (n + k) := by
  rw [Metered, UInt64.toNat_add, h, UInt64.toNat_ofNat', ← Nat.add_mod, Nat.add_assoc]

theorem delta_iff (h : Metered mark count reset n) : Delta mark count n ↔ Ahead mark reset n := by
  have hmark := mark.toNat_lt
  have hzero : mark = 0 ↔ mark.toNat = 0 := UInt64.toNat_inj.symm
  rw [Metered] at h
  rw [Delta, Ahead, hzero, UInt64.le_iff_toNat_le]
  constructor
  · rintro ⟨hle, hdiff⟩
    rw [UInt64.toNat_sub_of_le _ _ (UInt64.le_iff_toNat_le.mpr hle)] at hdiff
    cases reset with
    | false =>
      rw [if_neg Bool.false_ne_true] at h
      exact ⟨nofun, by omega⟩
    | true =>
      rw [if_pos rfl] at h
      exact ⟨fun _ => by omega, by omega⟩
  · rintro ⟨hreset, hlt⟩
    have hcount : count.toNat = mark.toNat + n := by
      cases reset with
      | false =>
        rw [if_neg Bool.false_ne_true] at h
        omega
      | true =>
        have hmark' := hreset rfl
        rw [if_pos rfl] at h
        omega
    have hle : mark.toNat ≤ count.toNat := by omega
    refine ⟨hle, ?_⟩
    rw [UInt64.toNat_sub_of_le _ _ (UInt64.le_iff_toNat_le.mpr hle)]
    omega

end Metered

end NetDebugger.Lib
