import NetDebugger.Ring.Calls

/-! Records that are too large for the ring.  `KndRingWrite` rounds the size in 64 bits and compares
it after the cast to ULONG, so the comparison sees the size modulo `2 ^ 32`. -/

namespace NetDebugger.Ring

open Lib

/-- The 8-aligned size of the record, before the cast. -/
def WriteCall.fullSize (c : WriteCall) : Nat :=
  kndAlignUp (sizeofKndRecord + c.payload.len + c.data.len)

/-- `padBytes` of a record of `recLen` bytes, in ULONG arithmetic. -/
def WriteCall.padBytes (c : WriteCall) (recLen : Nat) : Nat :=
  (recLen + 2 ^ 32 * 3 - sizeofKndRecord - c.payload.len - c.data.len) % 2 ^ 32

theorem WriteCall.recLen_eq (c : WriteCall) : c.recLen = c.fullSize % 2 ^ 32 := rfl

theorem recordBytes_padBytes (c : WriteCall) (recLen sequence : Nat) :
    recordBytes c recLen sequence =
      (KndRecord.mk recLen c.type c.flags sequence c.timestamp).bytes ++ c.payload.copied ++
        c.data.copied ++ List.replicate (c.padBytes recLen) 0 := rfl

/-- A record that the data area cannot hold is refused, and changes nothing but the drop counters;
the length field of a record that is written covers it, and `padBytes` is what is left. -/
structure Measured (s : RingState) (c : WriteCall) : Prop where
  rejects : s.dataSize < c.fullSize → ∃ bytes, kndRingWrite s c = (s.drop bytes, false)
  covers : (kndRingWrite s c).2 = true → ∃ pl, beginWrite s c = .ok (Pending.of s c pl) ∧
    sizeofKndRecord + c.payload.len + c.data.len + c.padBytes pl.recLen = pl.recLen

/-- An empty ring takes whatever the comparison lets through. -/
theorem fresh_accepts {D : Nat} {c : WriteCall} (hrec : c.recLen ≤ D) :
    Accepts (RingState.fresh D) c := by
  have hcontig : D - 0 % D = D := by rw [Nat.zero_mod, Nat.sub_zero]
  have hroom : footprint D 0 c.recLen ≤ D := by
    simp only [footprint]
    rw [if_neg (by omega)]
    split <;> omega
  exact ⟨hrec, Nat.le_refl 0, Nat.zero_le _, hroom⟩

theorem fresh_not_measured {D : Nat} {c : WriteCall} (hD : RingSize D) (hrec : c.recLen ≤ D)
    (hlarge : D < c.fullSize) : ¬Measured (RingState.fresh D) c := by
  intro h
  have htrue : (kndRingWrite (RingState.fresh D) c).2 = true :=
    (kndRingWrite_true_iff c hD).mpr (fresh_accepts hrec)
  obtain ⟨bytes, heq⟩ := h.rejects hlarge
  rw [heq] at htrue
  cases htrue

/-- A size that the comparison refuses. -/
theorem measured_of_large {s : RingState} {c : WriteCall} (hD : RingSize s.dataSize)
    (h : s.dataSize < c.recLen) : Measured s c := by
  have hnot : ¬Accepts s c := fun haccepts => absurd haccepts.size (Nat.not_le.mpr h)
  refine ⟨fun _ => ?_, fun htrue => absurd ((kndRingWrite_true_iff c hD).mp htrue) hnot⟩
  rcases kndRingWrite_cases c hD with ⟨haccepts, -⟩ | ⟨-, -, heq⟩
  · exact absurd haccepts hnot
  · exact ⟨charged s c, heq⟩

/-- A size that the cast leaves as it is. -/
theorem measured_of_small {s : RingState} {c : WriteCall} (hD : RingSize s.dataSize)
    (h : c.fullSize < 2 ^ 32) : Measured s c := by
  have hrec : c.recLen = c.fullSize := Nat.mod_eq_of_lt h
  by_cases hlarge : s.dataSize < c.recLen
  · exact measured_of_large hD hlarge
  · refine ⟨fun hlt => absurd (hrec ▸ hlt) hlarge, fun htrue => ?_⟩
    have hhigh := hD.high
    have halign : sizeofKndRecord + c.payload.len + c.data.len ≤ c.fullSize :=
      (kndAlignUp_spec _).1
    cases hplace : place s.dataSize s.writePos s.header.readPos c.recLen with
    | error bytes => simp [kndRingWrite, beginWrite, hplace] at htrue
    | ok pl =>
      have hlaid := place_ok hD hplace
      have hle := hlaid.recLen_le
      have htotal := hlaid.total_eq
      have hfits := hlaid.fits
      refine ⟨pl, by simp only [beginWrite, hplace], ?_⟩
      rw [WriteCall.padBytes]
      omega

/-- Over every size of the ring and every pair of lengths: records are measured rightly in every
state that an honest consumer can lead to, exactly when the cast loses nothing or leaves a size that
is too large as well. -/
theorem measured_iff {alloc : Allocation} {size : UInt32} {s₀ : RingState}
    (hcreate : kndRingCreate alloc size = .ok s₀) (c : WriteCall) :
    (∀ ms x, Reaches s₀ ms x → Measured x.1 c) ↔
      c.fullSize < 2 ^ 32 ∨ size.toNat < c.fullSize % 2 ^ 32 := by
  obtain ⟨hD, rfl⟩ := kndRingCreate_ok hcreate
  have hhigh := hD.high
  constructor
  · intro hall
    by_contra hnot
    rw [not_or, Nat.not_lt, Nat.not_lt] at hnot
    exact fresh_not_measured hD hnot.2 (by omega) (hall [] _ (Reaches.nil _))
  · intro h ms x hreach
    have hsize := (hreach.sound hD).size
    have hDx : RingSize x.1.dataSize := hsize.symm ▸ hD
    rcases h with hsmall | hlarge
    · exact measured_of_small hDx hsmall
    · exact measured_of_large hDx (by rw [hsize, c.recLen_eq]; exact hlarge)

/-- A record one byte too large for the smallest ring. -/
theorem measured_iff_small :
    let c : WriteCall := ⟨kndRecData, 0, .null 0, .bytes (List.replicate 0xffe9 0), 0⟩
    0x10000 < c.fullSize ∧ Measured (RingState.fresh 0x10000) c := by
  intro c
  have hcreate : kndRingCreate ⟨true, true⟩ 0x10000 = .ok (RingState.fresh 0x10000) := rfl
  have hlen : c.data.len = 0xffe9 := List.length_replicate
  have hsize : c.fullSize = 0x10008 := by
    rw [WriteCall.fullSize, hlen]
    show kndAlignUp (24 + 0 + 0xffe9) = 0x10008
    decide
  have hall := (measured_iff hcreate c).mpr (.inl (by rw [hsize]; decide))
  exact ⟨by rw [hsize]; decide, hall [] _ (Reaches.nil _)⟩

/-- A record of 4 GiB: the cast leaves a size of 0, and the smallest ring takes it. -/
theorem measured_not_always :
    ¬∀ (alloc : Allocation) (size : UInt32) (s₀ : RingState), kndRingCreate alloc size = .ok s₀ →
      ∀ c : WriteCall, c.payload.len < 2 ^ 32 → c.data.len < 2 ^ 32 →
        ∀ ms x, Reaches s₀ ms x → Measured x.1 c := by
  intro hall
  let c : WriteCall := ⟨kndRecData, 0, .null 0, .bytes (List.replicate (2 ^ 32 - 24) 0), 0⟩
  have hcreate : kndRingCreate ⟨true, true⟩ 0x10000 = .ok (RingState.fresh 0x10000) := rfl
  obtain ⟨hD, -⟩ := kndRingCreate_ok hcreate
  have hlen : c.data.len = 2 ^ 32 - 24 := List.length_replicate
  have hsize : c.fullSize = 2 ^ 32 := by
    rw [WriteCall.fullSize, hlen]
    show kndAlignUp (24 + 0 + (2 ^ 32 - 24)) = 2 ^ 32
    decide
  have hrec : c.recLen ≤ 0x10000 := by
    rw [c.recLen_eq, hsize]
    decide
  have hmeasured := hall ⟨true, true⟩ 0x10000 _ hcreate c (Nat.two_pow_pos 32)
    (by rw [hlen]; decide) [] _ (Reaches.nil _)
  exact fresh_not_measured hD hrec (by rw [hsize]; decide) hmeasured

end NetDebugger.Ring
