import Mathlib.Data.List.Basic
import Mathlib.Data.Nat.Digits.Defs

/-! Numbers in text.  The digits that `Nat.toDigits` gives, in whatever code they are written, are
read back as the number. -/

namespace NetDebugger.Lib

variable {α : Type*}

/-- The number that a text spells in a base, where all of it is digits. -/
def valueOf (val : α → Option Nat) (base : Nat) (s : List α) : Option Nat :=
  s.foldlM (fun acc c => (val c).map (acc * base + ·)) 0

variable {val : α → Option Nat} {base : Nat}

theorem valueOf_snoc (s : List α) (c : α) : valueOf val base (s ++ [c]) =
    (valueOf val base s).bind fun acc => (val c).map (acc * base + ·) := by
  unfold valueOf
  rw [List.foldlM_append]
  cases List.foldlM (fun acc c => (val c).map (acc * base + ·)) 0 s with
  | none => rfl
  | some acc => simp

/-- What `code` writes, `val` reads. -/
def ReadsDigits (val : α → Option Nat) (code : Char → α) (base : Nat) : Prop :=
  ∀ d < base, val (code (Nat.digitChar d)) = some d

theorem valueOf_toDigits {code : Char → α} (hbase : 1 < base) (hcode : ReadsDigits val code base)
    (n : Nat) : valueOf val base ((Nat.toDigits base n).map code) = some n := by
  induction n using Nat.strongRecOn with
  | ind n ih =>
    rw [Nat.toDigits_eq_if hbase]
    split
    · next hn => simp [valueOf, hcode n hn]
    · next hn =>
      have hlast := hcode (n % base) (Nat.mod_lt n (by omega))
      have hfront := ih (n / base) (Nat.div_lt_self (by omega) hbase)
      rw [List.map_append, List.map_singleton, valueOf_snoc, hfront, Option.bind_some, hlast,
        Option.map_some, Nat.div_add_mod']

/-- Zeros in front change nothing. -/
theorem valueOf_padded {zero : α} (hzero : val zero = some 0) (k : Nat) (s : List α) :
    valueOf val base (List.replicate k zero ++ s) = valueOf val base s := by
  have hzeros : valueOf val base (List.replicate k zero) = some 0 := by
    induction k with
    | zero => rfl
    | succ k ih => rw [List.replicate_succ', valueOf_snoc, ih, Option.bind_some, hzero]; simp
  unfold valueOf at hzeros ⊢
  rw [List.foldlM_append, hzeros]
  rfl

theorem mem_toDigits (hbase : 1 < base) {n : Nat} {c : Char} (h : c ∈ Nat.toDigits base n) :
    ∃ d < base, c = Nat.digitChar d := by
  induction n using Nat.strongRecOn with
  | ind n ih =>
    rw [Nat.toDigits_eq_if hbase] at h
    split at h
    · next hn => exact ⟨n, hn, List.mem_singleton.mp h⟩
    · next hn =>
      rcases List.mem_append.mp h with hfront | hlast
      · exact ih (n / base) (Nat.div_lt_self (by omega) hbase) hfront
      · exact ⟨n % base, Nat.mod_lt n (by omega), List.mem_singleton.mp hlast⟩

/-- Different numbers have different texts. -/
theorem toDigits_injective {code : Char → α} (hbase : 1 < base) (hcode : ReadsDigits val code base) :
    Function.Injective fun n => (Nat.toDigits base n).map code := by
  intro m n h
  have hm := valueOf_toDigits hbase hcode m
  have hn := valueOf_toDigits hbase hcode n
  dsimp only at h
  rw [h, hn] at hm
  exact (Option.some.inj hm).symm

end NetDebugger.Lib
