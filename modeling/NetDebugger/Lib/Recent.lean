import Mathlib.Algebra.Group.Defs
import Mathlib.Algebra.BigOperators.Group.List.Basic

/-! Bounded logs: a queue that drops its oldest element when a new one does not fit holds the
last elements of everything that was pushed. -/

namespace NetDebugger.Lib

variable {α : Type*}

/-- The last `cap` elements. -/
def recent (cap : Nat) (xs : List α) : List α := xs.drop (xs.length - cap)

/-- A push onto a queue of at most `cap` elements. -/
def pushRecent (cap : Nat) (xs : List α) (x : α) : List α :=
  let xs := xs ++ [x]
  if xs.length > cap then xs.drop 1 else xs

@[simp] theorem recent_nil (cap : Nat) : recent cap ([] : List α) = [] := List.drop_nil

theorem length_recent (cap : Nat) (xs : List α) : (recent cap xs).length = min xs.length cap := by
  rw [recent, List.length_drop]
  omega

/-- The queue follows the log. -/
theorem pushRecent_recent (cap : Nat) (xs : List α) (x : α) :
    pushRecent cap (recent cap xs) x = recent cap (xs ++ [x]) := by
  have hlen : (recent cap xs ++ [x]).length = min xs.length cap + 1 := by
    rw [List.length_append, length_recent, List.length_singleton]
  have happend : recent cap xs ++ [x] = (xs ++ [x]).drop (xs.length - cap) :=
    (List.drop_append_of_le_length (Nat.sub_le ..)).symm
  have hlog : (xs ++ [x]).length = xs.length + 1 := List.length_append
  rw [pushRecent, hlen, happend]
  by_cases hfull : cap ≤ xs.length
  · rw [if_pos (by omega), List.drop_drop, recent, hlog, show xs.length - cap + 1 =
      xs.length + 1 - cap by omega]
  · rw [if_neg (by omega), recent, hlog, show xs.length - cap = xs.length + 1 - cap by omega]

/-- Elements that are numbered one after the other are found by their number. -/
theorem find_numbered {f : α → Nat} {xs : List α} {base : Nat}
    (h : ∀ i x, xs[i]? = some x → f x = base + i) (n : Nat) :
    xs.find? (f · = n) = if n < base then none else xs[n - base]? := by
  induction xs generalizing base with
  | nil => simp
  | cons x xs ih =>
    have hx : f x = base := h 0 x rfl
    by_cases hn : f x = n
    · rw [List.find?_cons_of_pos (by simpa using hn), if_neg (by omega),
        show n - base = 0 by omega]
      rfl
    · have htail : ∀ i y, xs[i]? = some y → f y = base + 1 + i := by
        intro i y hy
        rw [h (i + 1) y hy]
        omega
      have hrest := ih htail
      rw [List.find?_cons_of_neg (by simpa using hn), hrest]
      by_cases hlt : n < base
      · rw [if_pos hlt, if_pos (Nat.lt_succ_of_lt hlt)]
      · rw [if_neg hlt, if_neg (by omega), show n - base = n - (base + 1) + 1 by omega,
          List.getElem?_cons_succ]

/-- The element with number `n` is found until `cap` more have been pushed behind it. -/
theorem find_recent {f : α → Nat} {xs : List α} (h : ∀ i x, xs[i]? = some x → f x = i + 1)
    (cap : Nat) {n : Nat} (hn : 0 < n) :
    (recent cap xs).find? (f · = n) = if xs.length < n + cap then xs[n - 1]? else none := by
  have hnumbered : ∀ i x, (recent cap xs)[i]? = some x → f x = xs.length - cap + 1 + i := by
    intro i x hx
    rw [recent, List.getElem?_drop] at hx
    rw [h _ x hx]
    omega
  rw [find_numbered hnumbered]
  by_cases hkept : xs.length < n + cap
  · rw [if_neg (by omega), if_pos hkept, recent, List.getElem?_drop,
      show xs.length - cap + (n - (xs.length - cap + 1)) = n - 1 by omega]
  · rw [if_pos (by omega), if_neg hkept]

/-- A count that grows by one in one place. -/
theorem sum_modify_add [AddCommMonoid α] (xs : List α) {i : Nat} (hi : i < xs.length) (a : α) :
    (xs.modify i (· + a)).sum = xs.sum + a := by
  induction xs generalizing i with
  | nil => cases hi
  | cons x xs ih =>
    cases i with
    | zero => rw [List.modify_zero_cons, List.sum_cons, List.sum_cons, add_right_comm]
    | succ i =>
      rw [List.modify_succ_cons, List.sum_cons, List.sum_cons, ih (Nat.lt_of_succ_lt_succ hi),
        add_assoc]

end NetDebugger.Lib
