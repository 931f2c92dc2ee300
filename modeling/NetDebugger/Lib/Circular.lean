import Mathlib.Data.Nat.Bitwise
import Mathlib.Tactic.Ring

/-! Counters that never stop and the cells of a circular buffer they fall on: the cell of the
counter `p` in a buffer of `size` cells is `p % size`. -/

namespace NetDebugger.Lib

/-- A step that stays before the end of the buffer moves the cell by the step. -/
theorem cell_add {size p n : Nat} (h : p % size + n < size) : (p + n) % size = p % size + n := by
  rw [Nat.add_mod, Nat.mod_eq_of_lt (show n < size by omega), Nat.mod_eq_of_lt h]

/-- A step that ends at the end of the buffer restarts at its first cell. -/
theorem cell_full {size p n : Nat} (h : p % size + n = size) : (p + n) % size = 0 := by
  have hp := Nat.div_add_mod p size
  have hsum : p + n = size * (p / size + 1) := by
    rw [Nat.mul_add, Nat.mul_one]
    omega
  rw [hsum, Nat.mul_mod_right]

/-- Counters less than a buffer apart have different cells. -/
theorem cell_ne {size p q : Nat} (hlt : p < q) (hapart : q < p + size) : p % size ≠ q % size := by
  intro heq
  have hdvd : size ∣ q - p := Nat.dvd_of_mod_eq_zero (Nat.sub_mod_eq_zero_of_mod_eq heq.symm)
  have := Nat.eq_zero_of_dvd_of_lt hdvd (by omega)
  omega

/-- Masking with a power of two less one is the remainder. -/
theorem and_mask_eq_mod {size : Nat} (h : ∃ k, size = 2 ^ k) (p : Nat) :
    p &&& (size - 1) = p % size := by
  obtain ⟨k, rfl⟩ := h
  exact Nat.and_two_pow_sub_one_eq_mod p k

end NetDebugger.Lib
