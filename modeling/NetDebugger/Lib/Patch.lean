import Mathlib.Data.List.Basic

/-! Parts of a list of fixed length, and patches to it.  A patch writes some entries over those at an
offset; a part that it covers reads back from it, and a part that it does not touch is left as it
was, also by any number of patches. -/

namespace NetDebugger.Lib

variable {α : Type*}

/-- The `n` entries at `off`, as far as they are there. -/
def part (s : List α) (off n : Nat) : List α := (s.drop off).take n

/-- `bs` over the entries at `off`. -/
def patch (s : List α) (off : Nat) (bs : List α) : List α :=
  s.take off ++ bs ++ s.drop (off + bs.length)

/-- The extents `[a, a + m)` and `[b, b + n)` have nothing in common. -/
def Apart (a m b n : Nat) : Prop := a + m ≤ b ∨ b + n ≤ a

instance (a m b n : Nat) : Decidable (Apart a m b n) :=
  inferInstanceAs (Decidable (a + m ≤ b ∨ b + n ≤ a))

theorem part_length {s : List α} {off n : Nat} (h : off + n ≤ s.length) :
    (part s off n).length = n := by
  rw [part, List.length_take, List.length_drop]
  omega

theorem patch_length {s bs : List α} {off : Nat} (h : off + bs.length ≤ s.length) :
    (patch s off bs).length = s.length := by
  simp only [patch, List.length_append, List.length_take, List.length_drop]
  omega

theorem part_patch_inner {s bs : List α} {off i n : Nat} (h : off ≤ s.length)
    (hi : i + n ≤ bs.length) : part (patch s off bs) (off + i) n = part bs i n := by
  have hlen : (s.take off).length = off := List.length_take_of_le h
  rw [part, patch, List.append_assoc, List.drop_append, hlen, Nat.add_sub_cancel_left,
    List.drop_eq_nil_of_le (by omega), List.nil_append, List.drop_append_of_le_length (by omega),
    List.take_append_of_le_length (by rw [List.length_drop]; omega)]
  rfl

/-- A patch reads back. -/
theorem part_patch_same {s bs : List α} {off : Nat} (h : off ≤ s.length) :
    part (patch s off bs) off bs.length = bs := by
  have hinner := part_patch_inner h (Nat.le_of_eq (Nat.zero_add bs.length))
  rwa [Nat.add_zero, part, part, List.drop_zero, List.take_length] at hinner

/-- A patch leaves the parts that it does not touch. -/
theorem part_patch_apart {s bs : List α} {off a n : Nat} (h : off + bs.length ≤ s.length)
    (hapart : Apart off bs.length a n) : part (patch s off bs) a n = part s a n := by
  have hlen : (s.take off).length = off := List.length_take_of_le (by omega)
  unfold part patch
  rcases hapart with hbehind | hfront
  · obtain ⟨k, rfl⟩ := Nat.exists_eq_add_of_le hbehind
    rw [List.drop_append, List.length_append, hlen, Nat.add_sub_cancel_left,
      List.drop_eq_nil_of_le (by rw [List.length_append, hlen]; omega), List.nil_append,
      List.drop_drop]
  · rw [List.append_assoc, List.drop_append_of_le_length (by omega),
      List.take_append_of_le_length (by rw [List.length_drop, hlen]; omega), List.drop_take,
      List.take_take, Nat.min_eq_left (by omega)]

end NetDebugger.Lib
