import NetDebugger.Lib.Search

/-! Arithmetic on machine words that must not wrap: an operation whose result does not fit has none.
A search with such indices returns the largest word when it finds nothing. -/

namespace NetDebugger.Lib

def checkedAdd (w a b : Nat) : Option Nat := if a + b < 2 ^ w then some (a + b) else none

def checkedSub (a b : Nat) : Option Nat := if b ≤ a then some (a - b) else none

/-- `SIZE_MAX`. -/
def sizeMax : Nat := 2 ^ 64 - 1

/-- A vector of bytes, which has fewer than half as many as there are words. -/
structure ByteVector where
  bytes : List UInt8
  fits : bytes.length < 2 ^ 63

theorem checkedAdd_of_lt {w a b : Nat} (h : a + b < 2 ^ w) : checkedAdd w a b = some (a + b) :=
  if_pos h

theorem checkedSub_of_le {a b : Nat} (h : b ≤ a) : checkedSub a b = some (a - b) := if_pos h

variable {α : Type} [DecidableEq α]

/-- The loop of a search from `i` on, with words for indices. -/
def checkedFind (w : Nat) (pat d : List α) : Nat → Nat → Option Nat
  | 0, _ => none
  | fuel + 1, i => do
    if (← checkedAdd w i pat.length) ≤ d.length then
      if ← matchAt d pat i then some i
      else do checkedFind w pat d fuel (← checkedAdd w i 1)
    else some (2 ^ w - 1)

/-- The words are as good as numbers in a buffer that leaves room for the pattern. -/
theorem checkedFind_eq {w : Nat} {pat d : List α} (hpat : 0 < pat.length)
    (hw : d.length + pat.length < 2 ^ w) {fuel i : Nat} (hi : i ≤ d.length) :
    checkedFind w pat d fuel i = (findLoop pat d fuel i).map fun r => r.getD (2 ^ w - 1) := by
  induction fuel generalizing i with
  | zero => rfl
  | succ fuel ih =>
    unfold checkedFind findLoop
    rw [checkedAdd_of_lt (by omega), Option.bind_eq_bind, Option.bind_some]
    by_cases hroom : i + pat.length ≤ d.length
    · rw [if_pos hroom, if_pos hroom, matchAt_eq hroom]
      by_cases hmatch : pat <+: d.drop i
      · simp [hmatch]
      · have hnext := @ih (i + 1) (by omega)
        simp only [hmatch, Option.bind_eq_bind, Option.bind_some, decide_false, Bool.false_eq_true,
          if_false, checkedAdd_of_lt (show i + 1 < 2 ^ w by omega), hnext]
    · rw [if_neg hroom, if_neg hroom]
      rfl

end NetDebugger.Lib
