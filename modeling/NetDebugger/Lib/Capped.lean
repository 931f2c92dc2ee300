import Mathlib.Data.List.Infix

/-! A buffer that takes what fits under a cap, with a flag for what did not.  Under one cap it holds
a prefix of what was pushed; a cap that grows after something was left out puts later elements where
the missing ones belong. -/

namespace NetDebugger.Lib

variable {α : Type*}

structure Capped (α : Type*) where
  buf : List α
  truncated : Bool

namespace Capped

def empty : Capped α := ⟨[], false⟩

def push (c : Capped α) (cap : Nat) (ys : List α) : Capped α :=
  if c.buf.length < cap then
    let kept := ys.take (cap - c.buf.length)
    ⟨c.buf ++ kept, c.truncated || kept.length < ys.length⟩
  else ⟨c.buf, true⟩

theorem push_of_room {c : Capped α} {cap : Nat} (h : c.buf.length < cap) (ys : List α) :
    c.push cap ys = ⟨c.buf ++ ys.take (cap - c.buf.length),
      c.truncated || (ys.take (cap - c.buf.length)).length < ys.length⟩ := if_pos h

theorem push_of_full {c : Capped α} {cap : Nat} (h : ¬c.buf.length < cap) (ys : List α) :
    c.push cap ys = ⟨c.buf, true⟩ := if_neg h

theorem push_of_fits {c : Capped α} {cap : Nat} {ys : List α} (h : c.buf.length < cap)
    (hfits : c.buf.length + ys.length ≤ cap) : c.push cap ys = ⟨c.buf ++ ys, c.truncated⟩ := by
  have htake : ys.take (cap - c.buf.length) = ys := List.take_of_length_le (by omega)
  rw [push_of_room h, htake]
  simp

/-- What fits is stored, also where nothing fits any more and nothing is left to store. -/
theorem push_whole {cap : Nat} (c : Capped α) {ys : List α} (h : c.buf.length + ys.length ≤ cap) :
    (c.push cap ys).buf = c.buf ++ ys := by
  by_cases hroom : c.buf.length < cap
  · rw [push_of_fits hroom h]
  · have hnone : ys = [] := List.length_eq_zero_iff.mp (by omega)
    rw [push_of_full hroom, hnone, List.append_nil]

/-- The buffer begins what was pushed, and the flag says whether there is more. -/
structure Faithful (c : Capped α) (xs : List α) : Prop where
  front : c.buf <+: xs
  truncated : c.truncated = true ↔ c.buf.length < xs.length

/-- What is pushed continues the buffer: after something was left out, only the missing elements do,
and a full buffer that misses nothing is not marked. -/
def Continues (c : Capped α) (cap : Nat) (xs ys : List α) : Prop :=
  if c.buf.length < cap then
    c.truncated = true → ys.take (cap - c.buf.length) <+: xs.drop c.buf.length ++ ys
  else ys = [] → c.truncated = true

theorem faithful_empty : Faithful (empty : Capped α) [] := ⟨List.nil_prefix, by simp [empty]⟩

/-- A push keeps a buffer faithful exactly when it continues it. -/
theorem push_faithful_iff {c : Capped α} {xs : List α} (h : c.Faithful xs) (cap : Nat)
    (ys : List α) : (c.push cap ys).Faithful (xs ++ ys) ↔ c.Continues cap xs ys := by
  obtain ⟨⟨zs, rfl⟩, htruncated⟩ := h
  rw [List.length_append] at htruncated
  have hmissing : (c.buf ++ zs).drop c.buf.length = zs := List.drop_left
  rw [Continues, hmissing]
  by_cases hroom : c.buf.length < cap
  · rw [push_of_room hroom, if_pos hroom]
    have hflag : (c.truncated || decide ((ys.take (cap - c.buf.length)).length < ys.length)) = true ↔
        (c.buf ++ ys.take (cap - c.buf.length)).length < (c.buf ++ zs ++ ys).length := by
      rw [Bool.or_eq_true, htruncated, decide_eq_true_eq]
      simp only [List.length_append, List.length_take]
      omega
    have hfront : c.buf ++ ys.take (cap - c.buf.length) <+: c.buf ++ zs ++ ys ↔
        ys.take (cap - c.buf.length) <+: zs ++ ys := by
      rw [List.append_assoc, List.prefix_append_right_inj]
    constructor
    · rintro ⟨hpre, -⟩ -
      exact hfront.mp hpre
    · intro hcontinues
      refine ⟨hfront.mpr ?_, hflag⟩
      cases htrunc : c.truncated with
      | true => exact hcontinues htrunc
      | false =>
        -- nothing is missing yet
        rw [htrunc] at htruncated
        have hnone : ¬c.buf.length < c.buf.length + zs.length := fun hlt =>
          Bool.false_ne_true (htruncated.mpr hlt)
        have hnil : zs = [] := List.length_eq_zero_iff.mp (by omega)
        rw [hnil, List.nil_append]
        exact List.take_prefix ..
  · rw [push_of_full hroom, if_neg hroom]
    constructor
    · rintro ⟨-, hmore⟩ rfl
      rw [htruncated]
      simpa using hmore
    · intro hempty
      refine ⟨by rw [List.append_assoc]; exact List.prefix_append .., iff_of_true rfl ?_⟩
      simp only [List.length_append]
      cases ys with
      | nil => exact htruncated.mp (hempty rfl)
      | cons y ys =>
        rw [List.length_cons]
        omega

end Capped

end NetDebugger.Lib
