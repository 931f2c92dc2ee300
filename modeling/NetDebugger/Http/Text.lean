import Mathlib.Data.List.TakeWhile
import NetDebugger.Lib.Search
import NetDebugger.Lib.Text

/-! The texts of `http_parse.cpp` and the C library functions it reads them with, in the C locale and
with an `unsigned long` of 32 bits. -/

namespace NetDebugger.Http

open Lib

abbrev Bytes := List UInt8

def crlf : Bytes := [0x0D, 0x0A]

/-- `std::tolower`. -/
def tolower (c : UInt8) : UInt8 := if 0x41 ≤ c ∧ c ≤ 0x5A then c + 0x20 else c

def lower (s : Bytes) : Bytes := s.map tolower

/-- `Trim`: bytes up to the space go from both ends. -/
def trim (s : Bytes) : Bytes :=
  ((s.dropWhile (· ≤ 0x20)).reverse.dropWhile (· ≤ 0x20)).reverse

/-- `std::isalpha`. -/
def isalpha (c : UInt8) : Bool := 0x41 ≤ c ∧ c ≤ 0x5A ∨ 0x61 ≤ c ∧ c ≤ 0x7A

/-- `std::isspace`. -/
def isspace (c : UInt8) : Bool := c = 0x20 ∨ 0x09 ≤ c ∧ c ≤ 0x0D

/-- The value of a digit in a base up to 16. -/
def digitVal (base : Nat) (c : UInt8) : Option Nat :=
  let v :=
    if 0x30 ≤ c ∧ c ≤ 0x39 then c.toNat - 0x30
    else if 0x61 ≤ c ∧ c ≤ 0x7A then c.toNat - 0x61 + 10
    else if 0x41 ≤ c ∧ c ≤ 0x5A then c.toNat - 0x41 + 10
    else base
  if v < base then some v else none

/-- The number that the digits in front of a text spell. -/
def digitsVal (base : Nat) : Nat → Bytes → Nat
  | acc, [] => acc
  | acc, c :: s =>
    match digitVal base c with
    | some v => digitsVal base (acc * base + v) s
    | none => acc

/-- The sign in front of a number. -/
def sign : Bytes → Bool × Bytes
  | 0x2D :: s => (true, s)
  | 0x2B :: s => (false, s)
  | s => (false, s)

/-- The `0x` in front of a hexadecimal number. -/
def dropBase (base : Nat) : Bytes → Bytes
  | 0x30 :: c :: s => if base = 16 ∧ (c = 0x78 ∨ c = 0x58) then s else 0x30 :: c :: s
  | s => s

/-- `std::strtoul` of a C string. -/
def strtoul (base : Nat) (s : Bytes) : Nat :=
  let (neg, rest) := sign ((cString s).dropWhile isspace)
  let v := digitsVal base 0 (dropBase base rest)
  if v ≥ 2 ^ 32 then 2 ^ 32 - 1 else if neg then (2 ^ 32 - v) % 2 ^ 32 else v

/-- `std::atoi` of a C string. -/
def atoi (s : Bytes) : Int :=
  let (neg, rest) := sign ((cString s).dropWhile isspace)
  let v := digitsVal 10 0 rest
  if neg then -(min v (2 ^ 31) : Nat) else (min v (2 ^ 31 - 1) : Nat)

/-! ### Trimmed texts -/

/-- Neither end of the text is a byte up to the space. -/
def Trimmed (s : Bytes) : Prop := (∀ c ∈ s.head?, 0x20 < c) ∧ ∀ c ∈ s.getLast?, 0x20 < c

instance (s : Bytes) : Decidable (Trimmed s) := by
  unfold Trimmed
  infer_instance

theorem dropWhile_blank {ws s : Bytes} (hws : ∀ c ∈ ws, c ≤ 0x20)
    (hs : ∀ c ∈ s.head?, 0x20 < c) : (ws ++ s).dropWhile (fun c => decide (c ≤ 0x20)) = s := by
  induction ws with
  | nil =>
    cases s with
    | nil => rfl
    | cons c s =>
      have hc : ¬c ≤ 0x20 := UInt8.not_le.mpr (hs c rfl)
      rw [List.nil_append, List.dropWhile_cons, if_neg (by simpa using hc)]
  | cons w ws ih =>
    have hw := hws w (List.mem_cons_self ..)
    rw [List.cons_append, List.dropWhile_cons, if_pos (decide_eq_true hw)]
    exact ih fun c hc => hws c (List.mem_cons_of_mem _ hc)

/-- `Trim` takes blanks off a trimmed text. -/
theorem trim_blanks {pre s post : Bytes} (hpre : ∀ c ∈ pre, c ≤ 0x20)
    (hpost : ∀ c ∈ post, c ≤ 0x20) (hs : Trimmed s) : trim (pre ++ (s ++ post)) = s := by
  unfold trim
  by_cases hnil : s = []
  · subst hnil
    have hall := @dropWhile_blank (pre ++ post) []
      (fun c hc => (List.mem_append.mp hc).elim (hpre c) (hpost c)) (by simp)
    rw [List.append_nil] at hall
    rw [List.nil_append, hall]
    rfl
  · have hhead : ∀ c ∈ (s ++ post).head?, 0x20 < c := by
      rw [List.head?_append_of_ne_nil s hnil]
      exact hs.1
    have hlast : ∀ c ∈ s.reverse.head?, 0x20 < c := by
      rw [List.head?_reverse]
      exact hs.2
    rw [dropWhile_blank hpre hhead, List.reverse_append,
      dropWhile_blank (fun c hc => hpost c (List.mem_reverse.mp hc)) hlast, List.reverse_reverse]

theorem trim_of_trimmed {s : Bytes} (hs : Trimmed s) : trim s = s := by
  have h := @trim_blanks [] s [] (by simp) (by simp) hs
  rwa [List.nil_append, List.append_nil] at h

/-! ### Numerals -/

/-- One or more digits of the base that denote the value. -/
structure Numeral (base : Nat) (s : Bytes) (v : Nat) : Prop where
  nonempty : s ≠ []
  digits : ∀ c ∈ s, (digitVal base c).isSome = true
  value : digitsVal base 0 s = v

/-- A digit is visible, and none of the marks around a number. -/
structure DigitLike (c : UInt8) : Prop where
  visible : 0x20 < c
  space : isspace c = false
  minus : c ≠ 0x2D
  plus : c ≠ 0x2B
  mark : c ≠ 0x78 ∧ c ≠ 0x58
  semicolon : c ≠ 0x3B

theorem digitLike {base : Nat} (hbase : base ≤ 16) {c : UInt8} (h : (digitVal base c).isSome = true) :
    DigitLike c := by
  have hrange : 0x30 ≤ c.toNat ∧ c.toNat ≤ 0x39 ∨ 0x61 ≤ c.toNat ∧ c.toNat ≤ 0x66 ∨
      0x41 ≤ c.toNat ∧ c.toNat ≤ 0x46 := by
    by_cases hdigit : 0x30 ≤ c ∧ c ≤ 0x39
    · simp only [UInt8.le_iff_toNat_le] at hdigit
      exact .inl hdigit
    by_cases hsmall : 0x61 ≤ c ∧ c ≤ 0x7A
    · simp [digitVal, hdigit, hsmall] at h
      simp only [UInt8.le_iff_toNat_le, UInt8.reduceToNat] at hsmall
      omega
    by_cases hcapital : 0x41 ≤ c ∧ c ≤ 0x5A
    · simp [digitVal, hdigit, hsmall, hcapital] at h
      simp only [UInt8.le_iff_toNat_le, UInt8.reduceToNat] at hcapital
      omega
    · simp [digitVal, hdigit, hsmall, hcapital] at h
  have hne : ∀ n : Nat, n < 256 → (n < 0x30 ∨ 0x66 < n ∨ n = 0x58 ∨ n = 0x3B) → c ≠ UInt8.ofNat n := by
    intro n hn hout heq
    rw [heq, UInt8.toNat_ofNat', Nat.mod_eq_of_lt hn] at hrange
    omega
  constructor
  case visible =>
    rw [UInt8.lt_iff_toNat_lt]
    show 0x20 < c.toNat
    omega
  case space =>
    simp only [isspace, UInt8.le_iff_toNat_le, decide_eq_false_iff_not, not_or]
    refine ⟨hne 0x20 (by decide) (by decide), ?_⟩
    show ¬(0x09 ≤ c.toNat ∧ c.toNat ≤ 0x0D)
    omega
  case minus => exact hne 0x2D (by decide) (by decide)
  case plus => exact hne 0x2B (by decide) (by decide)
  case mark => exact ⟨hne 0x78 (by decide) (by decide), hne 0x58 (by decide) (by decide)⟩
  case semicolon => exact hne 0x3B (by decide) (by decide)

variable {base : Nat} {s : Bytes} {v : Nat}

theorem Numeral.trimmed (h : Numeral base s v) (hbase : base ≤ 16) : Trimmed s :=
  ⟨fun c hc => (digitLike hbase (h.digits c (List.mem_of_mem_head? hc))).visible,
    fun c hc => (digitLike hbase (h.digits c (List.mem_of_mem_getLast? hc))).visible⟩

theorem sign_of_ne {c : UInt8} (s : Bytes) (hminus : c ≠ 0x2D) (hplus : c ≠ 0x2B) :
    sign (c :: s) = (false, c :: s) := by
  unfold sign
  split
  · exact absurd (List.cons.inj ‹_›).1 hminus
  · exact absurd (List.cons.inj ‹_›).1 hplus
  · rfl

/-- A numeral is read past the blanks and the sign. -/
theorem Numeral.sign_eq (h : Numeral base s v) (hbase : base ≤ 16) :
    sign ((cString s).dropWhile isspace) = (false, s) := by
  have hcString : cString s = s := by
    refine List.takeWhile_eq_self_iff.mpr fun c hc => ?_
    have hvisible := (digitLike hbase (h.digits c hc)).visible
    refine decide_eq_true fun hzero => ?_
    rw [hzero] at hvisible
    exact absurd hvisible (by decide)
  obtain ⟨c, t, rfl⟩ := List.exists_cons_of_ne_nil h.nonempty
  have hc := digitLike hbase (h.digits c (List.mem_cons_self ..))
  rw [hcString, List.dropWhile_cons, hc.space, if_neg (by decide)]
  exact sign_of_ne t hc.minus hc.plus

theorem Numeral.strtoul (h : Numeral base s v) (hbase : base ≤ 16) :
    strtoul base s = min v (2 ^ 32 - 1) := by
  have hdrop : dropBase base s = s := by
    unfold dropBase
    split
    · rename_i c t
      have hmark := (digitLike hbase (h.digits c (by simp))).mark
      exact if_neg fun hbad => hbad.2.elim hmark.1 hmark.2
    · rfl
  unfold Http.strtoul
  rw [h.sign_eq hbase]
  simp only [hdrop, h.value, Bool.false_eq_true, if_false]
  by_cases hv : v ≥ 2 ^ 32
  · rw [if_pos hv, Nat.min_eq_right (by omega)]
  · rw [if_neg hv, Nat.min_eq_left (by omega)]

theorem Numeral.atoi (h : Numeral 10 s v) (hv : v < 2 ^ 31) : atoi s = v := by
  unfold Http.atoi
  rw [h.sign_eq (by decide)]
  simp only [h.value, Bool.false_eq_true, if_false]
  congr 1
  omega

end NetDebugger.Http
