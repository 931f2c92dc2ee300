import NetDebugger.Ring.Bounds

/-! The kernel producer against a hostile consumer.  Between calls an adversary with the user
mapping replaces every byte of the mapped region, header and data.  The private position is the
only thing the producer computes with, so every store stays in the data area. -/

namespace NetDebugger.Ring

open Lib

/-- A buffer argument is non-NULL when its length is not zero. -/
def Buffer.Present (b : Buffer) : Prop := ∀ n, b = .null n → n = 0

theorem Buffer.present_bytes (bs : List UInt8) : (Buffer.bytes bs).Present := by
  intro n h
  cases h

theorem Buffer.present_null : (Buffer.null 0).Present := by
  intro n h
  cases h
  rfl

theorem Buffer.Present.copied_length {b : Buffer} (h : b.Present) : b.copied.length = b.len := by
  cases b with
  | null n => exact (h n rfl).symm
  | bytes bs => rfl

/-- The calls of the driver: present buffers, and a size that 32 bits can hold. -/
structure WriteCall.Admissible (c : WriteCall) : Prop where
  payload : c.payload.Present
  data : c.data.Present
  size : sizeofKndRecord + c.payload.len + c.data.len ≤ 2 ^ 32 - 8

theorem WriteCall.Admissible.recLen_spec {c : WriteCall} (h : c.Admissible) :
    24 + c.payload.len + c.data.len ≤ c.recLen ∧
      c.recLen < 24 + c.payload.len + c.data.len + 8 ∧ c.recLen % 8 = 0 := by
  have hsize := h.size
  have halign := kndAlignUp_spec (sizeofKndRecord + c.payload.len + c.data.len)
  rw [sizeofKndRecord] at hsize halign
  rw [WriteCall.recLen, sizeofKndRecord, Nat.mod_eq_of_lt (by omega)]
  exact halign

/-- The record takes exactly its length: `padBytes` does not wrap. -/
theorem recordBytes_length {c : WriteCall} (h : c.Admissible) {recLen : Nat} (sequence : Nat)
    (hle : c.recLen ≤ recLen) (hlt : recLen < 2 ^ 32) :
    (recordBytes c recLen sequence).length = recLen := by
  have hspec := h.recLen_spec
  have hpad : (recLen + 2 ^ 32 * 3 - sizeofKndRecord - c.payload.len - c.data.len) % 2 ^ 32 =
      recLen - 24 - c.payload.len - c.data.len := by
    rw [sizeofKndRecord]
    omega
  rw [recordBytes, hpad]
  simp only [List.length_append, KndRecord.bytes_length, h.payload.copied_length,
    h.data.copied_length, List.length_replicate]
  omega

theorem wrapBytes_length (c : WriteCall) (needPad sequence : Nat) :
    (wrapBytes c needPad sequence).length = 24 := by simp [wrapBytes]

/-- What `beginWrite` found when it did not drop. -/
theorem beginWrite_ok {s : RingState} {c : WriteCall} {p : Pending} (hD : RingSize s.dataSize)
    (h : beginWrite s c = .ok p) :
    ∃ pl, Placed s.dataSize s.writePos s.header.readPos c.recLen pl ∧ p = Pending.of s c pl := by
  rw [beginWrite] at h
  split at h
  · cases h
  · rename_i pl hplace
    exact ⟨pl, place_ok hD hplace, (Except.ok.inj h).symm⟩

theorem beginWrite_error {s t : RingState} {c : WriteCall} (h : beginWrite s c = .error t) :
    ∃ bytes, t = s.drop bytes := by
  rw [beginWrite] at h
  split at h
  · exact ⟨_, (Except.error.inj h).symm⟩
  · cases h

@[simp] theorem Pending.of_call (s : RingState) (c : WriteCall) (pl : Placement) :
    (Pending.of s c pl).call = c := by
  simp only [Pending.of]
  split <;> rfl

@[simp] theorem Pending.of_place (s : RingState) (c : WriteCall) (pl : Placement) :
    (Pending.of s c pl).place = pl := by
  simp only [Pending.of]
  split <;> rfl

/-- Every store of a call goes to a cell of the stretch that the call will publish. -/
theorem Pending.of_store_cell {s : RingState} {c : WriteCall} {pl : Placement}
    (hD : RingSize s.dataSize) (ha : Aligned s.dataSize s.writePos) (hc : c.Admissible)
    (hp : Placed s.dataSize s.writePos s.header.readPos c.recLen pl) {st : Store}
    (hst : st ∈ (Pending.of s c pl).stores) :
    ∃ x, s.writePos ≤ x ∧ x < s.writePos + pl.total ∧ st.1 = x % s.dataSize := by
  have hlow := hD.low
  have hhigh := hD.high
  have hmod : s.writePos % s.dataSize < s.dataSize := Nat.mod_lt _ (by omega)
  have hfits := hp.fits
  have htotal := hp.total_eq
  have hlen : ∀ sequence, (recordBytes c pl.recLen sequence).length = pl.recLen := fun sequence =>
    recordBytes_length hc sequence hp.recLen_le (by omega)
  simp only [Pending.of] at hst
  split at hst
  · rename_i hpad
    have hpadEq : pl.needPad = s.dataSize - s.writePos % s.dataSize := by
      rcases hp.pad with ⟨h0, -⟩ | ⟨heq, -⟩
      · exact absurd h0 hpad
      · exact heq
    have hroom := ha.2
    rcases List.mem_append.mp hst with hst | hst
    · -- the WRAP header
      have hmem := mem_blockStores hst
      rw [wrapBytes_length, hp.offset_eq] at hmem
      refine ⟨s.writePos + (st.1 - s.writePos % s.dataSize), by omega, by omega, ?_⟩
      rw [cell_add (by omega)]
      omega
    · -- the record, which starts over at offset 0
      have hmem := mem_blockStores hst
      rw [hlen] at hmem
      have hcell : (s.writePos + pl.needPad) % s.dataSize = 0 := by
        rw [hp.recordCell hD, if_neg hpad]
      refine ⟨s.writePos + pl.needPad + st.1, by omega, by omega, ?_⟩
      rw [cell_add (by omega), hcell, Nat.zero_add]
  · rename_i hpad
    have hpad0 : pl.needPad = 0 := by simpa using hpad
    have hmem := mem_blockStores hst
    rw [hlen, hp.offset_eq] at hmem
    have hfit : s.writePos % s.dataSize + pl.recLen ≤ s.dataSize := by
      rcases hp.leftover hpad0 with hfull | hroom <;> omega
    refine ⟨s.writePos + (st.1 - s.writePos % s.dataSize), by omega, by omega, ?_⟩
    rw [cell_add (by omega)]
    omega

/-! ### Runs against an adversary -/

/-- New contents for the whole mapped region. -/
structure Tamper where
  header : RingHeader
  data : Memory

def RingState.tampered (s : RingState) (t : Tamper) : RingState :=
  { s with header := t.header, data := t.data }

/-- A tampering followed by a call. -/
def hostileStep (s : RingState) (x : Tamper × WriteCall) : RingState :=
  (kndRingWrite (s.tampered x.1) x.2).1

def hostileRun (s : RingState) (xs : List (Tamper × WriteCall)) : RingState :=
  xs.foldl hostileStep s

/-- The bytes a call takes in the data area: nothing when it drops. -/
def bytesTaken (s : RingState) (c : WriteCall) : Nat :=
  match beginWrite s c with
  | .ok p => p.place.needPad + p.place.recLen
  | .error _ => 0

/-- The bytes produced in a run, counted without wrapping. -/
def hostileBytes : RingState → List (Tamper × WriteCall) → Nat
  | _, [] => 0
  | s, x :: xs => bytesTaken (s.tampered x.1) x.2 + hostileBytes (hostileStep s x) xs

@[simp] theorem kndRingWrite_dataSize (s : RingState) (c : WriteCall) :
    (kndRingWrite s c).1.dataSize = s.dataSize := by
  simp only [kndRingWrite, beginWrite]
  cases place s.dataSize s.writePos s.header.readPos c.recLen <;> rfl

/-- A call moves the private position by the bytes it takes. -/
theorem kndRingWrite_writePos {s : RingState} (c : WriteCall) (hs : s.writePos < 2 ^ 64) :
    (kndRingWrite s c).1.writePos = (s.writePos + bytesTaken s c) % 2 ^ 64 := by
  simp only [kndRingWrite, beginWrite, bytesTaken]
  cases place s.dataSize s.writePos s.header.readPos c.recLen with
  | error bytes => exact (Nat.mod_eq_of_lt hs).symm
  | ok pl => simp only [commitWrite, Nat.add_assoc]

/-- A call takes at most the data area and keeps the position aligned. -/
theorem bytesTaken_spec {s : RingState} {c : WriteCall} (hD : RingSize s.dataSize)
    (ha : Aligned s.dataSize s.writePos) (hc : c.Admissible) :
    bytesTaken s c ≤ s.dataSize ∧ Aligned s.dataSize (s.writePos + bytesTaken s c) := by
  rw [bytesTaken]
  split
  · rename_i p hbegin
    obtain ⟨pl, hp, rfl⟩ := beginWrite_ok hD hbegin
    have hfits := hp.fits
    have htotal := hp.total_eq
    rw [Pending.of_place, ← Nat.add_assoc]
    exact ⟨by omega, (hp.aligned hD ha hc.recLen_spec.2.2).1⟩
  · exact ⟨Nat.zero_le _, ha⟩

/-- What holds of the private part of the ring while fewer than `2^64` bytes were produced. -/
structure Private (D : Nat) (s : RingState) : Prop where
  size : s.dataSize = D
  aligned : Aligned D s.writePos
  small : s.writePos < 2 ^ 64

theorem hostileStep_private {D : Nat} {s : RingState} (x : Tamper × WriteCall) (hD : RingSize D)
    (hs : Private D s) (hc : x.2.Admissible)
    (hbytes : s.writePos + bytesTaken (s.tampered x.1) x.2 < 2 ^ 64) :
    Private D (hostileStep s x) ∧
      (hostileStep s x).writePos = s.writePos + bytesTaken (s.tampered x.1) x.2 := by
  obtain ⟨rfl, ha, hsmall⟩ := hs
  have hspec : bytesTaken (s.tampered x.1) x.2 ≤ s.dataSize ∧
      Aligned s.dataSize (s.writePos + bytesTaken (s.tampered x.1) x.2) := bytesTaken_spec hD ha hc
  have hpos : (hostileStep s x).writePos = s.writePos + bytesTaken (s.tampered x.1) x.2 := by
    rw [hostileStep, kndRingWrite_writePos x.2 (show (s.tampered x.1).writePos < 2 ^ 64 from hsmall)]
    exact Nat.mod_eq_of_lt hbytes
  refine ⟨⟨kndRingWrite_dataSize (s.tampered x.1) x.2, ?_, ?_⟩, hpos⟩
  · rw [hpos]
    exact hspec.2
  · omega

theorem hostileRun_private {D : Nat} {s : RingState} (xs ys : List (Tamper × WriteCall))
    (hD : RingSize D) (hs : Private D s) (hc : ∀ x ∈ xs, x.2.Admissible)
    (hbytes : s.writePos + hostileBytes s (xs ++ ys) < 2 ^ 64) :
    Private D (hostileRun s xs) ∧
      (hostileRun s xs).writePos + hostileBytes (hostileRun s xs) ys < 2 ^ 64 := by
  induction xs generalizing s with
  | nil => exact ⟨hs, hbytes⟩
  | cons x xs ih =>
    rw [List.cons_append, hostileBytes] at hbytes
    obtain ⟨hprivate, hpos⟩ :=
      hostileStep_private x hD hs (hc x (List.mem_cons_self ..)) (by omega)
    exact ih hprivate (fun y hy => hc y (List.mem_cons_of_mem _ hy)) (by omega)

/-- Whatever the adversary writes before each call: the stores of a call stay in the data area,
WRAP header and record are contiguous there, no 32-bit length wraps, and the private position
grows by at most the data area, stays 8-aligned and leaves room for a header. -/
theorem kndRingWrite_hostile {alloc : Allocation} {size : UInt32} {s₀ : RingState}
    (hcreate : kndRingCreate alloc size = .ok s₀) (past : List (Tamper × WriteCall)) (t : Tamper)
    (c : WriteCall) (hpast : ∀ x ∈ past, x.2.Admissible) (hc : c.Admissible)
    (hbytes : hostileBytes s₀ (past ++ [(t, c)]) < 2 ^ 64) :
    let D := size.toNat
    let s := hostileRun s₀ past
    let s' := hostileRun s₀ (past ++ [(t, c)])
    Aligned D s.writePos ∧ Aligned D s'.writePos ∧
      s.writePos ≤ s'.writePos ∧ s'.writePos ≤ s.writePos + D ∧
      (c.recLen ≤ D → (layout D s.writePos c.recLen).total =
        (layout D s.writePos c.recLen).needPad + (layout D s.writePos c.recLen).recLen) ∧
      ∀ p, beginWrite (s.tampered t) c = .ok p →
        (∀ st ∈ p.stores, st.1 < D) ∧
        (p.place.needPad ≠ 0 → s.writePos % D + sizeofKndRecord ≤ D) ∧
        (s.writePos + p.place.needPad) % D + p.place.recLen ≤ D ∧
        sizeofKndRecord + c.payload.len + c.data.len ≤ p.place.recLen := by
  obtain ⟨hD, rfl⟩ := kndRingCreate_ok hcreate
  have hs₀ : Private size.toNat (RingState.fresh size.toNat) :=
    ⟨rfl, aligned_zero hD, Nat.two_pow_pos 64⟩
  obtain ⟨hs, hnext⟩ := hostileRun_private past [(t, c)] hD hs₀ hpast (by
    rw [show (RingState.fresh size.toNat).writePos = 0 from rfl, Nat.zero_add]
    exact hbytes)
  have hrun : ∀ s₀, hostileRun s₀ (past ++ [(t, c)]) = hostileStep (hostileRun s₀ past) (t, c) :=
    fun s₀ => by
      rw [hostileRun, List.foldl_append]
      rfl
  simp only [hrun]
  generalize hostileRun (RingState.fresh size.toNat) past = s at hs hnext
  simp only [hostileBytes, Nat.add_zero] at hnext
  obtain ⟨hs', hpos⟩ := hostileStep_private (t, c) hD hs hc hnext
  simp only at hpos
  have hds : (s.tampered t).dataSize = size.toNat := hs.size
  have hDt : RingSize (s.tampered t).dataSize := by rw [hds]; exact hD
  have ha : Aligned (s.tampered t).dataSize (s.tampered t).writePos := by
    rw [hds]
    exact hs.aligned
  have htaken := bytesTaken_spec hDt ha hc
  rw [hds] at htaken
  refine ⟨hs.aligned, hs'.aligned, by omega, by omega,
    fun hrec => (layout_laid hD s.writePos hrec).total_eq, fun p hbegin => ?_⟩
  obtain ⟨pl, hp, rfl⟩ := beginWrite_ok hDt hbegin
  rw [Pending.of_place]
  have hcell : ∀ st ∈ (Pending.of (s.tampered t) c pl).stores,
      ∃ x, st.1 = x % (s.tampered t).dataSize := fun st hst => by
    obtain ⟨x, -, -, hx⟩ := Pending.of_store_cell hDt ha hc hp hst
    exact ⟨x, hx⟩
  rw [hds] at hp hcell
  have hpositive : 0 < size.toNat := by have := hD.low; omega
  refine ⟨fun st hst => ?_, fun _ => ?_, ?_, ?_⟩
  · obtain ⟨x, hx⟩ := hcell st hst
    rw [hx]
    exact Nat.mod_lt _ hpositive
  · have := hs.aligned.2
    have hmod := Nat.mod_lt s.writePos hpositive
    rw [sizeofKndRecord]
    omega
  · rcases hp.room hD hs.aligned with hfull | hroom
    · exact Nat.le_of_eq hfull
    · show (s.writePos + pl.needPad) % size.toNat + pl.recLen ≤ size.toNat
      have : (s.tampered t).writePos = s.writePos := rfl
      rw [this] at hroom
      omega
  · have := hc.recLen_spec.1
    have := hp.recLen_le
    rw [sizeofKndRecord]
    omega

/-- The adversary fills the data area, first claims to have read ahead of the producer, then
publishes an honest position: the first record is dropped, the second is stored. -/
theorem kndRingWrite_hostile_readAhead :
    let s₀ := RingState.fresh 0x10000
    let ahead : Tamper := ⟨{ s₀.header with readPos := 2 ^ 64 - 1 }, fun _ => 255⟩
    let honest : Tamper := ⟨s₀.header, fun _ => 255⟩
    let c : WriteCall := ⟨kndRecData, 0, .bytes [1, 2, 3], .null 0, 0⟩
    (hostileRun s₀ [(ahead, c)]).writePos = 0 ∧
      (hostileRun s₀ [(ahead, c), (honest, c)]).writePos = 32 ∧
      Aligned 0x10000 (hostileRun s₀ [(ahead, c), (honest, c)]).writePos := by
  intro s₀ ahead honest c
  have hcreate : kndRingCreate ⟨true, true⟩ 0x10000 = .ok s₀ := rfl
  have hc : c.Admissible :=
    ⟨Buffer.present_bytes _, Buffer.present_null, by decide⟩
  have hpast : ∀ x ∈ [(ahead, c)], x.2.Admissible := by
    intro x hx
    rw [List.mem_singleton.mp hx]
    exact hc
  have hall := kndRingWrite_hostile hcreate [(ahead, c)] honest c hpast hc (by decide)
  exact ⟨by decide, by decide, hall.2.1⟩

end NetDebugger.Ring
