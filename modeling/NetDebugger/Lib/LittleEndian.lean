import Mathlib.Data.Nat.Bits
import Mathlib.Data.UInt
import Mathlib.Tactic.Ring

/-! Little-endian fields behind a pointer, which is a function from offsets to bytes: the bytes of
a number, the number that bytes spell, and `Lies`, which says that a list of bytes lies at an
offset.  `Lies` splits over concatenation, so a structure that lies in memory gives its fields. -/

namespace NetDebugger.Lib

/-- The low `w` bytes of `n`, least significant first. -/
def leBytes : Nat → Nat → List UInt8
  | 0, _ => []
  | w + 1, n => UInt8.ofNat n :: leBytes w (n / 256)

/-- The number whose bytes, least significant first, are given. -/
def leNat : List UInt8 → Nat
  | [] => 0
  | b :: bs => b.toNat + 256 * leNat bs

@[simp] theorem leBytes_length (w n : Nat) : (leBytes w n).length = w := by
  induction w generalizing n with
  | zero => rfl
  | succ w ih => simp [leBytes, ih]

theorem leNat_leBytes (w n : Nat) : leNat (leBytes w n) = n % 256 ^ w := by
  induction w generalizing n with
  | zero => simp [leBytes, leNat, Nat.mod_one]
  | succ w ih =>
    have hbyte : (UInt8.ofNat n).toNat = n % 256 := UInt8.toNat_ofNat'
    rw [leBytes, leNat, ih, hbyte, pow_succ', Nat.mod_mul]

theorem leBytes_leNat (bs : List UInt8) : leBytes bs.length (leNat bs) = bs := by
  induction bs with
  | nil => rfl
  | cons b bs ih =>
    have hb := b.toNat_lt
    have hlow : UInt8.ofNat (b.toNat + 256 * leNat bs) = b := by
      rw [← UInt8.toNat_inj, UInt8.toNat_ofNat']
      omega
    have hhigh : (b.toNat + 256 * leNat bs) / 256 = leNat bs := by omega
    rw [List.length_cons, leNat, leBytes, hlow, hhigh, ih]

theorem leNat_lt (bs : List UInt8) : leNat bs < 256 ^ bs.length := by
  induction bs with
  | nil => simp [leNat]
  | cons b bs ih =>
    have hb : b.toNat < 256 := b.toNat_lt
    rw [leNat, List.length_cons, pow_succ]
    omega

/-- A number is there where any of its bytes is. -/
theorem leNat_ne_zero (bs : List UInt8) : leNat bs ≠ 0 ↔ bs.any (· ≠ 0) = true := by
  induction bs with
  | nil => simp [leNat]
  | cons b bs ih =>
    have hbyte : b.toNat = 0 ↔ b = 0 := UInt8.toNat_inj (b := 0)
    rw [leNat, List.any_cons, Bool.or_eq_true, ← ih, decide_eq_true_iff, ne_eq b 0, ← hbyte]
    omega

/-- The `len` bytes at `off` behind the pointer `p`. -/
def readBytes (p : Nat → UInt8) (off : Nat) : Nat → List UInt8
  | 0 => []
  | len + 1 => p off :: readBytes p (off + 1) len

/-- The `w`-byte little-endian number at `off` behind the pointer `p`. -/
def readNat (p : Nat → UInt8) (off w : Nat) : Nat := leNat (readBytes p off w)

/-- A pointer to the first byte of a list. Past the end of the list it reads zeros. -/
def pointer (bs : List UInt8) : Nat → UInt8 := fun i => bs.getD i 0

@[simp] theorem readBytes_length (p : Nat → UInt8) (off len : Nat) :
    (readBytes p off len).length = len := by
  induction len generalizing off with
  | zero => rfl
  | succ len ih => simp [readBytes, ih]

theorem readBytes_congr {p q : Nat → UInt8} {off off' len : Nat}
    (h : ∀ i < len, p (off + i) = q (off' + i)) : readBytes p off len = readBytes q off' len := by
  induction len generalizing off off' with
  | zero => rfl
  | succ len ih =>
    have h0 : p off = q off' := h 0 (by omega)
    rw [readBytes, readBytes, h0, ih fun i hi => ?_]
    have := h (i + 1) (by omega)
    rwa [show off + 1 + i = off + (i + 1) by omega, show off' + 1 + i = off' + (i + 1) by omega]

theorem readBytes_add (p : Nat → UInt8) (off m n : Nat) :
    readBytes p off (m + n) = readBytes p off m ++ readBytes p (off + m) n := by
  induction m generalizing off with
  | zero => simp [readBytes]
  | succ m ih =>
    rw [Nat.succ_add, readBytes, ih, readBytes, List.cons_append,
      show off + 1 + m = off + (m + 1) by omega]

theorem readBytes_getElem (p : Nat → UInt8) {off len i : Nat} (h : i < (readBytes p off len).length) :
    (readBytes p off len)[i] = p (off + i) := by
  induction len generalizing off i with
  | zero => simp at h
  | succ len ih =>
    cases i with
    | zero => rfl
    | succ i =>
      simp only [readBytes, List.getElem_cons_succ]
      rw [ih, show off + 1 + i = off + (i + 1) by omega]

theorem readNat_lt (p : Nat → UInt8) (off w : Nat) : readNat p off w < 256 ^ w := by
  simpa [readNat] using leNat_lt (readBytes p off w)

/-- The bytes `bs` lie at `off` behind `p`. -/
def Lies (p : Nat → UInt8) (off : Nat) (bs : List UInt8) : Prop :=
  readBytes p off bs.length = bs

theorem lies_iff {p : Nat → UInt8} {off : Nat} {bs : List UInt8} :
    Lies p off bs ↔ ∀ i (h : i < bs.length), p (off + i) = bs[i] := by
  constructor
  · intro h i hi
    have hget := readBytes_getElem p (show i < (readBytes p off bs.length).length by simpa using hi)
    rw [← hget]
    simp only [show readBytes p off bs.length = bs from h]
  · intro h
    refine List.ext_getElem (by simp) fun i h1 h2 => ?_
    rw [readBytes_getElem, h i h2]

@[simp] theorem lies_append {p : Nat → UInt8} {off : Nat} {xs ys : List UInt8} :
    Lies p off (xs ++ ys) ↔ Lies p off xs ∧ Lies p (off + xs.length) ys := by
  rw [Lies, List.length_append, readBytes_add]
  constructor
  · intro h
    exact List.append_inj h (by simp)
  · rintro ⟨hx, hy⟩
    rw [show readBytes p off xs.length = xs from hx, show readBytes p _ ys.length = ys from hy]

@[simp] theorem lies_nil (p : Nat → UInt8) (off : Nat) : Lies p off [] := rfl

@[simp] theorem lies_cons {p : Nat → UInt8} {off : Nat} {b : UInt8} {bs : List UInt8} :
    Lies p off (b :: bs) ↔ p off = b ∧ Lies p (off + 1) bs := by
  rw [Lies, List.length_cons, readBytes, List.cons.injEq]
  rfl

/-- Pointers that agree on the bytes see the same list. -/
theorem Lies.congr {p q : Nat → UInt8} {off off' : Nat} {bs : List UInt8} (h : Lies p off bs)
    (hpq : ∀ i < bs.length, q (off' + i) = p (off + i)) : Lies q off' bs := by
  rw [Lies, readBytes_congr hpq]
  exact h

theorem lies_pointer (bs rest : List UInt8) : Lies (pointer (bs ++ rest)) 0 bs := by
  refine lies_iff.mpr fun i hi => ?_
  simp [pointer, List.getElem?_append_left hi, List.getElem?_eq_getElem hi]

theorem readBytes_pointer {bs : List UInt8} {off len : Nat} (h : off + len ≤ bs.length) :
    readBytes (pointer bs) off len = (bs.drop off).take len := by
  apply List.ext_getElem
  · rw [readBytes_length, List.length_take, List.length_drop]
    omega
  · intro i hi _
    rw [readBytes_getElem]
    rw [readBytes_length] at hi
    simp [pointer, List.getElem?_eq_getElem (show off + i < bs.length by omega)]

theorem lies_readBytes (p : Nat → UInt8) (off len : Nat) : Lies p off (readBytes p off len) := by
  rw [Lies, readBytes_length]

theorem Lies.readBytes_eq {p : Nat → UInt8} {off len : Nat} {bs : List UInt8} (h : Lies p off bs)
    (hlen : len ≤ bs.length) : readBytes p off len = bs.take len := by
  have hsplit := h
  rw [Lies, show bs.length = len + (bs.length - len) by omega, readBytes_add] at hsplit
  rw [← hsplit, List.take_left' (by simp)]

/-- A number that lies at `off` reads back, up to its width. -/
theorem Lies.readNat_eq {p : Nat → UInt8} {off w n : Nat} (h : Lies p off (leBytes w n)) :
    readNat p off w = n % 256 ^ w := by
  rw [readNat, h.readBytes_eq (by simp), List.take_of_length_le (by simp), leNat_leBytes]

theorem Lies.readNat_eq_of_lt {p : Nat → UInt8} {off w n : Nat} (h : Lies p off (leBytes w n))
    (hn : n < 256 ^ w) : readNat p off w = n := by
  rw [h.readNat_eq, Nat.mod_eq_of_lt hn]

theorem Lies.uint16 {p : Nat → UInt8} {off : Nat} {x : UInt16} (h : Lies p off (leBytes 2 x.toNat)) :
    UInt16.ofNat (readNat p off 2) = x := by
  rw [h.readNat_eq_of_lt x.toNat_lt, UInt16.ofNat_toNat]

theorem Lies.uint32 {p : Nat → UInt8} {off : Nat} {x : UInt32} (h : Lies p off (leBytes 4 x.toNat)) :
    UInt32.ofNat (readNat p off 4) = x := by
  rw [h.readNat_eq_of_lt x.toNat_lt, UInt32.ofNat_toNat]

theorem Lies.uint64 {p : Nat → UInt8} {off : Nat} {x : UInt64} (h : Lies p off (leBytes 8 x.toNat)) :
    UInt64.ofNat (readNat p off 8) = x := by
  rw [h.readNat_eq_of_lt x.toNat_lt, UInt64.ofNat_toNat]

end NetDebugger.Lib
