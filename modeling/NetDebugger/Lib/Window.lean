import NetDebugger.Lib.Frames

/-! Pointers into a buffer.  A window is a place in the buffer and the number of entries from there that
may be read; a read is checked against both the window and the buffer. -/

namespace NetDebugger.Lib

variable {α : Type*}

structure Window where
  start : Nat
  len : Nat
deriving DecidableEq

namespace Window

/-- The window lies in the buffer. -/
def Inside (w : Window) (s : List α) : Prop := w.start + w.len ≤ s.length

/-- What lies in the window. -/
def view (w : Window) (s : List α) : List α := (s.drop w.start).take w.len

/-- `p[j]`. -/
def get? (w : Window) (s : List α) (j : Nat) : Option α :=
  if j < w.len then s[w.start + j]? else none

/-- `memcpy` of `n` entries from `p + off`. -/
def copy (w : Window) (s : List α) (off n : Nat) : Option (List α) :=
  if off + n ≤ w.len then slice s (w.start + off) n else none

variable {w : Window} {s : List α}

theorem Inside.view_length (h : w.Inside s) : (w.view s).length = w.len := by
  unfold Inside at h
  rw [view, List.length_take, List.length_drop]
  omega

theorem get?_eq (w : Window) (s : List α) (j : Nat) : w.get? s j = (w.view s)[j]? := by
  rw [get?, view, List.getElem?_take, List.getElem?_drop]

/-- An entry of the window is there. -/
theorem Inside.get?_some (h : w.Inside s) {j : Nat} (hj : j < w.len) : ∃ a, w.get? s j = some a := by
  rw [get?_eq, List.getElem?_eq_getElem (by rw [h.view_length]; exact hj)]
  exact ⟨_, rfl⟩

theorem Inside.copy_eq (h : w.Inside s) (off n : Nat) : w.copy s off n = slice (w.view s) off n := by
  have hlen := h.view_length
  unfold Inside at h
  by_cases hin : off + n ≤ w.len
  · rw [copy, if_pos hin, slice_of_le (by omega), slice_of_le (by omega), view, List.drop_take,
      List.drop_drop, List.take_take, Nat.min_eq_left (by omega)]
  · rw [copy, if_neg hin, slice, if_neg (by omega)]

/-- A window in the window. -/
theorem Inside.part (h : w.Inside s) {off n : Nat} (hin : off + n ≤ w.len) :
    (Window.mk (w.start + off) n).Inside s ∧
      slice (w.view s) off n = some ((Window.mk (w.start + off) n).view s) := by
  constructor
  · unfold Inside at h ⊢
    simp only
    omega
  · rw [← h.copy_eq, copy, if_pos hin]
    exact slice_of_le (by unfold Inside at h; omega)

end Window

end NetDebugger.Lib
