import NetDebugger.Ring.Oversize

/-! How much a burst needs.  Of all the records that follow each other without reaching the
consumer at most one is placed after a pad and at most one absorbs a tail; after either the rest of
the burst lies before the next end of the data area, so the largest record pays for both. -/

namespace NetDebugger.Ring

open Lib

/-- What is left of the data area, as `KndRingWrite` computes `avail`. -/
def RingState.avail (s : RingState) : Nat := s.dataSize - (s.writePos - s.header.readPos)

/-- The calls among the moves. -/
def calls : List Move → List WriteCall
  | [] => []
  | .write c :: ms => c :: calls ms
  | .consume _ :: ms => calls ms

def sizes (ms : List Move) : List Nat := (calls ms).map WriteCall.fullSize

def largest (ls : List Nat) : Nat := ls.foldr max 0

/-- Records of these sizes still fit, from position `n` on and with the consumer at `rp`: there is
room for one pad or tail, or none is needed before the next end of the data area. -/
def Room (D n rp : Nat) (ls : List Nat) : Prop :=
  ls.sum + largest ls ≤ D - (n - rp) ∨ ls.sum ≤ D - (n - rp) ∧ ls.sum + 24 ≤ D - n % D

/-- The first record of a burst fits, and leaves room for the rest. -/
theorem Room.step {D n rp l : Nat} {ls : List Nat} (hD : RingSize D) (ha : Aligned D n)
    (hl : 24 ≤ l) (hrp : rp ≤ n) (hused : n ≤ rp + D) (h : Room D n rp (l :: ls)) :
    footprint D n l ≤ D - (n - rp) ∧ Room D (n + footprint D n l) rp ls := by
  have hheader : sizeofKndRecord = 24 := rfl
  have hcontig := ha.2
  have hmod : n % D < D := Nat.mod_lt _ (by have := hD.low; omega)
  have hmax : l ≤ largest (l :: ls) ∧ largest ls ≤ largest (l :: ls) :=
    ⟨Nat.le_max_left .., Nat.le_max_right ..⟩
  simp only [Room, List.sum_cons] at h ⊢
  simp only [footprint]
  by_cases hwrap : D - n % D < l
  · -- the pad is shorter than the record, and the data area starts over
    have hzero : (n + (D - n % D)) % D = 0 := cell_full (by omega)
    rw [if_pos hwrap]
    rcases h with hpay | ⟨-, hfit⟩
    · have hcell : (n + (D - n % D) + l) % D = l := by
        rw [cell_add (by omega), hzero, Nat.zero_add]
      rw [← Nat.add_assoc, hcell]
      exact ⟨by omega, .inr ⟨by omega, by omega⟩⟩
    · omega
  · rw [if_neg hwrap]
    by_cases htail : D - n % D < l + sizeofKndRecord
    · -- the tail is shorter than a header, and so than the record
      have hzero : (n + (D - n % D)) % D = 0 := cell_full (by omega)
      rw [if_pos htail]
      rcases h with hpay | ⟨-, hfit⟩
      · rw [hzero]
        exact ⟨by omega, .inr ⟨by omega, by omega⟩⟩
      · omega
    · have hcell : (n + l) % D = n % D + l := cell_add (by omega)
      rw [if_neg htail, hcell]
      rcases h with hpay | ⟨hsum, hfit⟩
      · exact ⟨by omega, .inl (by omega)⟩
      · exact ⟨by omega, .inr ⟨by omega, by omega⟩⟩

/-- Progress of the consumer makes room. -/
theorem Room.mono {D n rp rp' : Nat} {ls : List Nat} (h : Room D n rp ls) (hle : rp ≤ rp') :
    Room D n rp' ls := by
  rcases h with hpay | ⟨hsum, hfit⟩
  · exact .inl (by omega)
  · exact .inr ⟨by omega, hfit⟩

theorem Room.le {D n rp l : Nat} {ls : List Nat} (h : Room D n rp (l :: ls)) : l ≤ D := by
  simp only [Room, List.sum_cons] at h
  omega

/-- A call for which there is room is accepted. -/
theorem accepts_of_room {s : RingState} {c : WriteCall} {ls : List Nat} (hD : RingSize s.dataSize)
    (ha : Aligned s.dataSize s.writePos) (hrp : s.header.readPos ≤ s.writePos)
    (hused : s.writePos ≤ s.header.readPos + s.dataSize)
    (hroom : Room s.dataSize s.writePos s.header.readPos (c.fullSize :: ls)) :
    Accepts s c ∧ Room s.dataSize (s.writePos + bytesTaken s c) s.header.readPos ls := by
  have hhigh := hD.high
  have hle := hroom.le
  have hrec : c.recLen = c.fullSize := c.recLen_eq.trans (Nat.mod_eq_of_lt (by omega))
  have hlow : 24 ≤ c.fullSize := by
    have halign := (kndAlignUp_spec (sizeofKndRecord + c.payload.len + c.data.len)).1
    rw [WriteCall.fullSize, sizeofKndRecord] at *
    omega
  obtain ⟨hfits, hrest⟩ := hroom.step hD ha hlow hrp hused
  have haccepts : Accepts s c :=
    ⟨by rw [hrec]; exact hle, hrp, by omega, by rw [hrec]; exact hfits⟩
  rcases kndRingWrite_cases c hD with ⟨-, htaken, -⟩ | ⟨hnot, -⟩
  · rw [htaken, hrec]
    exact ⟨haccepts, hrest⟩
  · exact absurd haccepts hnot

/-- A drained ring accepts every record of at most half its size. -/
theorem accepts_of_drained {s : RingState} {c : WriteCall} (hD : RingSize s.dataSize)
    (ha : Aligned s.dataSize s.writePos) (hdrained : s.header.readPos = s.writePos)
    (hhalf : 2 * c.fullSize ≤ s.dataSize) : Accepts s c := by
  have hroom : Room s.dataSize s.writePos s.header.readPos [c.fullSize] := by
    refine .inl ?_
    simp only [List.sum_cons, List.sum_nil, largest, List.foldr_cons, List.foldr_nil,
      Nat.max_zero]
    omega
  exact (accepts_of_room hD ha (by omega) (by omega) hroom).1

/-- A call that returns TRUE, if the positions have not wrapped before it. -/
def Served (x : RingState × Nat) : Move → Prop
  | .write c => x.2 < 2 ^ 64 → (kndRingWrite x.1 c).2 = true
  | .consume _ => True

theorem Served.returns {s : RingState} {n : Nat} {c : WriteCall} (h : Served (s, n) (.write c))
    (hn : n < 2 ^ 64) : (kndRingWrite s c).2 = true := h hn

/-- Once the positions have wrapped, nothing is promised. -/
theorem served_of_wrapped {x : RingState × Nat} {ms : List Move}
    (h : 2 ^ 64 ≤ x.2) : EachStep metered Served x ms := by
  induction ms generalizing x with
  | nil => trivial
  | cons m ms ih =>
    cases m with
    | write c =>
      refine ⟨fun hlt => absurd hlt (Nat.not_lt.mpr h), fun y hy => ih ?_⟩
      rw [metered_write hy]
      exact Nat.le_trans h (Nat.le_add_right ..)
    | consume rp =>
      refine ⟨trivial, fun y hy => ih ?_⟩
      rw [metered_consume hy]
      exact h

theorem burst_served {D : Nat} {x : RingState × Nat} {ms : List Move} (hD : RingSize D)
    (h : Sound D x) (hhonest : EachStep metered Honest x ms)
    (hroom : Room D x.2 x.1.header.readPos (sizes ms)) : EachStep metered Served x ms := by
  induction ms generalizing x with
  | nil => trivial
  | cons m ms ih =>
    obtain ⟨hm, hrest⟩ := hhonest
    cases m with
    | consume rp =>
      refine ⟨trivial, fun y hy => ih (metered_sound hD hm h hy) (hrest y hy) ?_⟩
      rw [metered_consume hy]
      exact hroom.mono hm.1
    | write c =>
      by_cases hbelow : x.2 < 2 ^ 64
      · have hDx : RingSize x.1.dataSize := h.size.symm ▸ hD
        have hpos : x.1.writePos = x.2 := h.position.trans (Nat.mod_eq_of_lt hbelow)
        have hused := h.used_le
        rw [← hpos, ← h.size] at hroom
        obtain ⟨haccepts, hnext⟩ := accepts_of_room hDx (by rw [h.size]; exact h.aligned)
          (by rw [hpos]; exact h.readPos_le) (by rw [hpos, h.size]; exact hused) hroom
        rw [hpos, h.size] at hnext
        refine ⟨fun _ => (kndRingWrite_true_iff c hDx).mpr haccepts,
          fun y hy => ih (metered_sound hD hm h hy) (hrest y hy) ?_⟩
        rw [metered_write hy]
        rcases kndRingWrite_cases c hDx with ⟨-, -, t, heq, hwrote⟩ | ⟨hnot, -⟩
        · rw [heq]
          show Room D (x.2 + bytesTaken x.1 c) t.header.readPos (sizes ms)
          rw [hwrote.readPos]
          exact hnext
        · exact absurd haccepts hnot
      · exact served_of_wrapped (Nat.not_lt.mp hbelow)

theorem burst_of_sum {D : Nat} {x : RingState × Nat} {ms : List Move} (hD : RingSize D)
    (h : Sound D x) (hhonest : EachStep metered Honest x ms)
    (hsum : (sizes ms).sum + largest (sizes ms) ≤ x.1.avail) : EachStep metered Served x ms := by
  by_cases hbelow : x.2 < 2 ^ 64
  · have hpos : x.1.writePos = x.2 := h.position.trans (Nat.mod_eq_of_lt hbelow)
    rw [RingState.avail, hpos, h.size] at hsum
    exact burst_served hD h hhonest (.inl hsum)
  · exact served_of_wrapped (Nat.not_lt.mp hbelow)

/-- From every state that an honest consumer can lead to: a burst is accepted whole if its records
and the largest of them once more fit in the free space, a drained ring accepts every record of at
most half its size, and until the positions wrap it is drained by publishing the producer's. -/
theorem burst_accepted {alloc : Allocation} {size : UInt32} {s₀ : RingState}
    (hcreate : kndRingCreate alloc size = .ok s₀) {es : List Move} {x : RingState × Nat}
    (hreach : Reaches s₀ es x) :
    (∀ ms, EachStep metered Honest x ms →
      (sizes ms).sum + largest (sizes ms) ≤ x.1.avail → EachStep metered Served x ms) ∧
    (∀ c : WriteCall, 2 * c.fullSize ≤ size.toNat → x.1.header.readPos = x.1.writePos →
      (kndRingWrite x.1 c).2 = true) ∧
    (x.2 < 2 ^ 64 → Honest x (.consume x.1.writePos) ∧
      ∀ c : WriteCall, 2 * c.fullSize ≤ size.toNat →
        (kndRingWrite (x.1.consume x.1.writePos) c).2 = true) := by
  obtain ⟨hD, rfl⟩ := kndRingCreate_ok hcreate
  have hsound := hreach.sound hD
  have hDx : RingSize x.1.dataSize := hsound.size.symm ▸ hD
  have ha : Aligned x.1.dataSize x.1.writePos := hsound.size.symm ▸ hsound.aligned
  have hposition := hsound.position
  refine ⟨fun ms hhonest hsum => burst_of_sum hD hsound hhonest hsum,
    fun c hhalf hdrained => ?_, fun hbelow => ⟨?_, fun c hhalf => ?_⟩⟩
  · rw [← hsound.size] at hhalf
    exact (kndRingWrite_true_iff c hDx).mpr (accepts_of_drained hDx ha hdrained hhalf)
  · have hpos : x.1.writePos = x.2 := hposition.trans (Nat.mod_eq_of_lt hbelow)
    rw [hpos]
    exact ⟨hsound.readPos_le, Nat.le_refl _, hbelow⟩
  · rw [← hsound.size] at hhalf
    exact (kndRingWrite_true_iff (s := x.1.consume x.1.writePos) c hDx).mpr
      (accepts_of_drained hDx ha rfl hhalf)

/-- The system between two calls. -/
theorem system_burst_accepted {D : Nat} {es : List Event} {y : System} (hD : RingSize D)
    (hlegal : ∀ e ∈ es, e.Legal)
    (hrun : runEvents System.step (System.initial (RingState.fresh D)) es = some y)
    (hidle : y.producer = none) {ms : List Move}
    (hhonest : EachStep metered Honest (y.ring, produced y.accepted) ms)
    (hsum : (sizes ms).sum + largest (sizes ms) ≤ y.ring.avail) :
    EachStep metered Served (y.ring, produced y.accepted) ms := by
  obtain ⟨past, hreach⟩ := whole_reached hD hlegal hrun
  rw [System.whole_idle hidle] at hreach
  exact burst_of_sum hD (hreach.sound hD) hhonest hsum

/-- A record of `len + 24` bytes. -/
def plainCall (len : Nat) : WriteCall :=
  ⟨kndRecData, 0, .null 0, .bytes (List.replicate len 0), 0⟩

theorem plainCall_fullSize (len : Nat) : (plainCall len).fullSize = kndAlignUp (24 + 0 + len) := by
  have hlen : (plainCall len).data.len = len := List.length_replicate
  rw [WriteCall.fullSize, hlen]
  rfl

/-- Two records of a quarter of the smallest ring. -/
theorem burst_accepted_two :
    let s := RingState.fresh 0x10000
    (kndRingWrite s (plainCall 0x3fe8)).2 = true ∧
      (kndRingWrite (kndRingWrite s (plainCall 0x3fe8)).1 (plainCall 0x3fe8)).2 = true := by
  intro s
  let ms : List Move := [.write (plainCall 0x3fe8), .write (plainCall 0x3fe8)]
  have hcreate : kndRingCreate ⟨true, true⟩ 0x10000 = .ok s := rfl
  have hhonest : EachStep metered Honest (s, 0) ms :=
    ⟨trivial, fun _ _ => ⟨trivial, fun _ _ => trivial⟩⟩
  have hsize : (plainCall 0x3fe8).fullSize = 0x4000 := (plainCall_fullSize _).trans (by decide)
  have hsum : (sizes ms).sum + largest (sizes ms) ≤ s.avail := by
    show ([(plainCall 0x3fe8).fullSize, (plainCall 0x3fe8).fullSize]).sum +
      largest [(plainCall 0x3fe8).fullSize, (plainCall 0x3fe8).fullSize] ≤ 0x10000
    rw [hsize]
    decide
  have hmove : metered (s, 0) (.write (plainCall 0x3fe8)) =
      some ((kndRingWrite s (plainCall 0x3fe8)).1, 0 + bytesTaken s (plainCall 0x3fe8)) := rfl
  obtain ⟨hfirst, hrest⟩ := (burst_accepted hcreate (Reaches.nil s)).1 ms hhonest hsum
  obtain ⟨hsecond, -⟩ := hrest _ hmove
  have hlen : (plainCall 0x3fe8).data.len = 0x3fe8 := List.length_replicate
  have hadmissible : (plainCall 0x3fe8).Admissible := by
    refine ⟨Buffer.present_null, Buffer.present_bytes _, ?_⟩
    rw [hlen]
    decide
  obtain ⟨hD, -⟩ := kndRingCreate_ok hcreate
  have htaken : bytesTaken s (plainCall 0x3fe8) ≤ 0x10000 :=
    (bytesTaken_spec (s := s) hD (aligned_zero hD) hadmissible).1
  have hbelow : 0 + bytesTaken s (plainCall 0x3fe8) < 2 ^ 64 := by
    rw [Nat.zero_add]
    exact Nat.lt_of_le_of_lt htaken (by decide)
  exact ⟨hfirst.returns (Nat.two_pow_pos 64), hsecond.returns hbelow⟩

/-! ### Past `2 ^ 64` bytes -/

theorem ringSize_small : RingSize 0x10000 := ⟨⟨16, rfl⟩, by decide, by decide⟩

theorem footprint_quarter (n : Nat) : footprint 0x10000 (n * 0x4000) 0x4000 = 0x4000 := by
  have hheader : sizeofKndRecord = 24 := rfl
  simp only [footprint]
  rw [if_neg (by omega)]
  split <;> omega

/-- One more record of a quarter of the ring, in a drained ring of 64 KiB. -/
theorem round_write {x : RingState × Nat} {c : WriteCall} (hsize : c.fullSize = 0x4000)
    (h : Sound 0x10000 x) {n : Nat} (hpos : x.1.writePos = n * 0x4000)
    (hrp : x.1.header.readPos = n * 0x4000) :
    ∃ t, metered x (.write c) = some (t, x.2 + 0x4000) ∧ t.header.readPos = n * 0x4000 ∧
      t.writePos = (n + 1) * 0x4000 % 2 ^ 64 := by
  have hrec : c.recLen = 0x4000 := by
    rw [c.recLen_eq, hsize]
    decide
  have hDx : RingSize x.1.dataSize := h.size.symm ▸ ringSize_small
  have haccepts : Accepts x.1 c := accepts_of_drained hDx (h.size.symm ▸ h.aligned)
    (hrp.trans hpos.symm) (by rw [hsize, h.size]; decide)
  rcases kndRingWrite_cases c hDx with ⟨-, htaken, t, heq, hwrote⟩ | ⟨hnot, -⟩
  · rw [h.size, hpos, hrec, footprint_quarter] at htaken
    have hmoved := hwrote.writePos
    rw [h.size, hpos, hrec, footprint_quarter, ← Nat.succ_mul] at hmoved
    refine ⟨t, ?_, hwrote.readPos.trans hrp, hmoved⟩
    simp only [metered, withHistory, RingState.move, RingState.moved, heq, Option.map_some, htaken]
  · exact absurd haccepts hnot

/-- The drained ring of 64 KiB after `n` records of a quarter of it. -/
theorem rounds {c : WriteCall} (hsize : c.fullSize = 0x4000) (n : Nat) (hn : n * 0x4000 < 2 ^ 64) :
    ∃ es x, Reaches (RingState.fresh 0x10000) es x ∧ x.2 = n * 0x4000 ∧
      x.1.header.readPos = n * 0x4000 := by
  induction n with
  | zero => exact ⟨[], _, Reaches.nil _, rfl, rfl⟩
  | succ n ih =>
    have hlt : n * 0x4000 < 2 ^ 64 :=
      Nat.lt_of_le_of_lt (Nat.mul_le_mul_right _ (Nat.le_succ n)) hn
    obtain ⟨es, x, hreach, hbytes, hrp⟩ := ih hlt
    have hsound := hreach.sound ringSize_small
    have hposition := hsound.position
    obtain ⟨t, hwrite, hread, -⟩ := round_write hsize hsound (n := n) (by omega) hrp
    have hafter : Reaches (RingState.fresh 0x10000) (es ++ [.write c]) (t, x.2 + 0x4000) :=
      hreach.snoc (m := .write c) trivial hwrite
    have hconsume : Honest (t, x.2 + 0x4000) (.consume ((n + 1) * 0x4000)) := by
      refine ⟨?_, ?_, hn⟩
      · show t.header.readPos ≤ (n + 1) * 0x4000
        omega
      · show (n + 1) * 0x4000 ≤ x.2 + 0x4000
        omega
    have hend : x.2 + 0x4000 = (n + 1) * 0x4000 := by omega
    exact ⟨_, _, hafter.snoc hconsume rfl, hend, rfl⟩

/-- The second of two records of a quarter of the ring, when the first one ends at `2 ^ 64`. -/
theorem burst_wrapped :
    ¬∀ (alloc : Allocation) (size : UInt32) (s₀ : RingState), kndRingCreate alloc size = .ok s₀ →
      ∀ es x, Reaches s₀ es x → ∀ ms, EachStep metered Honest x ms →
        (sizes ms).sum + largest (sizes ms) ≤ x.1.avail →
        EachStep metered (fun y m => ∀ c, m = .write c → (kndRingWrite y.1 c).2 = true) x ms := by
  intro hall
  have hcreate : kndRingCreate ⟨true, true⟩ 0x10000 = .ok (RingState.fresh 0x10000) := rfl
  obtain ⟨c, hsize⟩ : ∃ c : WriteCall, c.fullSize = 0x4000 :=
    ⟨plainCall 0x3fe8, (plainCall_fullSize _).trans (by decide)⟩
  obtain ⟨es, x, hreach, hbytes, hrp⟩ := rounds hsize (2 ^ 50 - 1) (by decide)
  have hsound := hreach.sound ringSize_small
  have hposition := hsound.position
  have hpos : x.1.writePos = (2 ^ 50 - 1) * 0x4000 := by omega
  have hsum : (sizes [.write c, .write c]).sum + largest (sizes [.write c, .write c]) ≤
      x.1.avail := by
    rw [RingState.avail, hpos, hrp, hsound.size]
    show [c.fullSize, c.fullSize].sum + largest [c.fullSize, c.fullSize] ≤ _
    rw [hsize]
    decide
  obtain ⟨t, hwrite, hread, hwrapped⟩ := round_write hsize hsound hpos hrp
  obtain ⟨-, hrest⟩ := hall ⟨true, true⟩ 0x10000 _ hcreate es x hreach [.write c, .write c]
    ⟨trivial, fun _ _ => ⟨trivial, fun _ _ => trivial⟩⟩ hsum
  obtain ⟨hsecond, -⟩ := hrest _ hwrite
  have htsize : t.dataSize = 0x10000 :=
    (metered_steady ringSize_small hsound.toSteady hwrite).size
  have haccepts : Accepts t c :=
    (kndRingWrite_true_iff c (htsize.symm ▸ ringSize_small)).mp (hsecond c rfl)
  have hle := haccepts.rp_le
  omega

end NetDebugger.Ring
