import NetDebugger.Lib.Circular
import NetDebugger.Ring.Write

/-! Where `KndRingWrite` stores.  `Placed` is everything its arithmetic promises, `Aligned` the
invariant of the private position, and neither trusts what the consumer can write. -/

namespace NetDebugger.Ring

open Lib

/-- The sizes that `KndRingCreate` accepts. -/
structure RingSize (D : Nat) : Prop where
  power : ∃ k, D = 2 ^ k
  low : 2 ^ 16 ≤ D
  high : D ≤ 2 ^ 31

theorem RingSize.dvd {D : Nat} (h : RingSize D) {j : Nat} (hj : j ≤ 16) : 2 ^ j ∣ D := by
  obtain ⟨k, rfl⟩ := h.power
  have hk : 16 ≤ k := (Nat.pow_le_pow_iff_right (by decide)).mp h.low
  exact Nat.pow_dvd_pow 2 (by omega)

theorem RingSize.dvd_two_pow_64 {D : Nat} (h : RingSize D) : D ∣ 2 ^ 64 := by
  obtain ⟨k, rfl⟩ := h.power
  have hk : k ≤ 31 := (Nat.pow_le_pow_iff_right (by decide)).mp h.high
  exact Nat.pow_dvd_pow 2 (by omega)

theorem RingSize.mod_eight {D : Nat} (h : RingSize D) (p : Nat) : p % D % 8 = p % 8 :=
  Nat.mod_mod_of_dvd p (h.dvd (show 3 ≤ 16 by decide))

theorem kndRingCreate_ok {alloc : Allocation} {size : UInt32} {s : RingState}
    (h : kndRingCreate alloc size = .ok s) :
    RingSize size.toNat ∧ s = RingState.fresh size.toNat := by
  have hlt := size.toNat_lt
  simp only [kndRingCreate] at h
  split at h
  · cases h
  rename_i hsize
  split at h
  · cases h
  split at h
  · cases h
  have hbounds : 0x10000 ≤ size.toNat ∧ size.toNat &&& (size.toNat - 1) = 0 := by
    rw [not_or, not_lt, ne_eq, not_not] at hsize
    exact hsize
  have hpower : ∃ k, size.toNat = 2 ^ k :=
    (Nat.and_sub_one_eq_zero_iff_isPowerOfTwo (by omega)).mp hbounds.2
  refine ⟨⟨hpower, hbounds.1, ?_⟩, (Except.ok.inj h).symm⟩
  obtain ⟨k, hk⟩ := hpower
  have hk32 : k < 32 := (Nat.pow_lt_pow_iff_right (show 1 < 2 by decide)).mp (hk ▸ hlt)
  rw [hk]
  exact Nat.pow_le_pow_right (by decide) (by omega)

/-- What the arithmetic of `KndRingWrite` promises of a layout. -/
structure Laid (D wp recLen : Nat) (p : Placement) : Prop where
  offset_eq : p.offset = wp % D
  total_eq : p.total = p.needPad + p.recLen
  recLen_le : recLen ≤ p.recLen
  recLen_lt : p.recLen < recLen + 24
  recLen_eq : p.recLen = recLen ∨ p.recLen = D - wp % D
  pad : p.needPad = 0 ∧ wp % D + p.recLen ≤ D ∨
    p.needPad = D - wp % D ∧ p.recLen = recLen ∧ D - wp % D < recLen
  leftover : p.needPad = 0 → wp % D + p.recLen = D ∨ wp % D + p.recLen + 24 ≤ D

theorem layout_laid {D recLen : Nat} (hD : RingSize D) (wp : Nat) (hrec : recLen ≤ D) :
    Laid D wp recLen (layout D wp recLen) := by
  have hlow := hD.low
  have hhigh := hD.high
  have hmod : wp % D < D := Nat.mod_lt _ (by omega)
  have hoffset : (wp &&& (D - 1)) % 2 ^ 32 = wp % D := by
    rw [and_mask_eq_mod hD.power]
    exact Nat.mod_eq_of_lt (by omega)
  simp only [layout, hoffset, sizeofKndRecord]
  by_cases hcontig : recLen ≤ D - wp % D
  · rw [if_pos hcontig]
    by_cases htail : D - wp % D - recLen ≠ 0 ∧ D - wp % D - recLen < 24
    · rw [if_pos htail]
      exact ⟨rfl, (Nat.zero_add _).symm, hcontig, by simp only; omega, .inr rfl,
        .inl ⟨rfl, by simp only; omega⟩, fun _ => .inl (by simp only; omega)⟩
    · rw [if_neg htail]
      exact ⟨rfl, (Nat.zero_add _).symm, le_refl _, by simp only; omega, .inl rfl,
        .inl ⟨rfl, by simp only; omega⟩, fun _ => by simp only; omega⟩
  · have hnowrap : (D - wp % D + recLen) % 2 ^ 32 = D - wp % D + recLen :=
      Nat.mod_eq_of_lt (by omega)
    rw [if_neg hcontig, hnowrap]
    exact ⟨rfl, rfl, le_refl _, by simp only; omega, .inl rfl, .inr ⟨rfl, rfl, by omega⟩,
      fun hpad => absurd hpad (by simp only; omega)⟩

/-- What is known when `KndRingWrite` goes on to store: the position it read from the consumer is
plausible, and pad and record fit in the free space. -/
structure Placed (D wp rp recLen : Nat) (p : Placement) : Prop extends Laid D wp recLen p where
  rp_le : rp ≤ wp
  used_le : wp - rp ≤ D
  fits : p.total ≤ D - (wp - rp)

theorem place_ok {D wp rp recLen : Nat} {p : Placement} (hD : RingSize D)
    (h : place D wp rp recLen = .ok p) : Placed D wp rp recLen p := by
  simp only [place] at h
  split at h
  · cases h
  split at h
  · cases h
  split at h
  · cases h
  rename_i hsize hrp havail
  obtain rfl := Except.ok.inj h
  have hlaid := layout_laid hD wp (show recLen ≤ D by omega)
  exact { toLaid := hlaid, rp_le := by omega, used_le := by omega, fits := by omega }

/-- The invariant of the private position: it is 8-aligned and always leaves room for a record
header before the end of the data area. -/
def Aligned (D wp : Nat) : Prop := wp % 8 = 0 ∧ 24 ≤ D - wp % D

theorem aligned_zero {D : Nat} (hD : RingSize D) : Aligned D 0 := by
  have := hD.low
  exact ⟨rfl, by rw [Nat.zero_mod]; omega⟩

/-- The offset of the record itself, after the pad. -/
theorem Placed.recordCell {D wp rp recLen : Nat} {p : Placement} (hp : Placed D wp rp recLen p)
    (hD : RingSize D) : (wp + p.needPad) % D = if p.needPad = 0 then wp % D else 0 := by
  have hmod : wp % D < D := Nat.mod_lt _ (by have := hD.low; omega)
  rcases hp.pad with ⟨hpad, -⟩ | ⟨hpad, -⟩
  · simp [hpad]
  · rw [if_neg (by omega)]
    exact cell_full (by omega)

/-- The record ends at the end of the data area or leaves room for a header. After a wrap this is
the counting argument: pad and record together are at most the free space. -/
theorem Placed.room {D wp rp recLen : Nat} {p : Placement} (hp : Placed D wp rp recLen p)
    (hD : RingSize D) (ha : Aligned D wp) :
    (wp + p.needPad) % D + p.recLen = D ∨ (wp + p.needPad) % D + p.recLen + 24 ≤ D := by
  rw [hp.recordCell hD]
  split
  · exact hp.leftover (by assumption)
  · have hfits := hp.fits
    have htotal := hp.total_eq
    have hroom := ha.2
    rcases hp.pad with ⟨hpad, -⟩ | ⟨hpad, -⟩ <;> omega

theorem Placed.aligned {D wp rp recLen : Nat} {p : Placement} (hp : Placed D wp rp recLen p)
    (hD : RingSize D) (ha : Aligned D wp) (hrec : recLen % 8 = 0) :
    Aligned D (wp + p.needPad + p.recLen) ∧ p.needPad % 8 = 0 ∧ p.recLen % 8 = 0 := by
  have hD8 : D % 8 = 0 := Nat.mod_eq_zero_of_dvd (hD.dvd (show 3 ≤ 16 by decide))
  have hwp8 : wp % D % 8 = 0 := by rw [hD.mod_eight]; exact ha.1
  have hmod : wp % D < D := Nat.mod_lt _ (by have := hD.low; omega)
  have hpad8 : p.needPad % 8 = 0 := by rcases hp.pad with ⟨hpad, -⟩ | ⟨hpad, -⟩ <;> omega
  have hrec8 : p.recLen % 8 = 0 := by
    rcases hp.recLen_eq with heq | heq <;> omega
  refine ⟨⟨?_, ?_⟩, hpad8, hrec8⟩
  · have := ha.1
    omega
  · have hlow := hD.low
    rcases hp.room hD ha with hfull | hroom
    · rw [cell_full hfull]
      omega
    · rw [cell_add (by omega)]
      omega

end NetDebugger.Ring
