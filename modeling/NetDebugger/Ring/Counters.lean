import NetDebugger.Ring.Burst

/-! The counters of the ring against the calls that were made.  Every drop path counts one record;
what it adds to `droppedBytes` is the record's own size on two of the three paths, and on the third,
where the ring is full, the room that the record would have taken. -/

namespace NetDebugger.Ring

open Lib

/-- `KND_STATS_OUT`. -/
structure KndStatsOut where
  writePos : Nat
  readPos : Nat
  totalRecords : Nat
  droppedRecords : Nat
  totalBytes : Nat
  droppedBytes : Nat
  activeFlows : Nat
  captureActive : Nat

/-- What `IOCTL_KND_GET_STATS` copies out of the mapped header. -/
def RingState.stats (s : RingState) : KndStatsOut where
  writePos := s.header.writePos
  readPos := s.header.readPos
  totalRecords := s.header.totalRecords
  droppedRecords := s.header.droppedRecords
  totalBytes := s.header.totalBytes
  droppedBytes := s.header.droppedBytes
  activeFlows := s.header.activeFlows
  captureActive := s.header.captureActive

/-- The calls of a run, each with what it returned. -/
abbrev Log := List (WriteCall × Bool)

def RingState.entry (s : RingState) : Move → Log
  | .write c => [(c, (kndRingWrite s c).2)]
  | .consume _ => []

/-- The ring beside the log of the calls so far. -/
def logged : RingState × Log → Move → Option (RingState × Log) :=
  withHistory RingState.move fun log s m => log ++ s.entry m

def Log.written (log : Log) : Nat := log.countP fun e => e.2

def Log.dropped (log : Log) : Nat := log.countP fun e => !e.2

/-- The own sizes of the dropped records. -/
def Log.droppedBytes (log : Log) : Nat :=
  ((log.filter fun e => !e.2).map fun e => e.1.fullSize).sum

/-- The counters that `IOCTL_KND_GET_STATS` reports say what the log says; they have 64 bits. -/
structure Accounted (s : RingState) (log : Log) : Prop where
  totalRecords : s.stats.totalRecords = log.written % 2 ^ 64
  droppedRecords : s.stats.droppedRecords = log.dropped % 2 ^ 64
  totalBytes : s.stats.totalBytes = s.writePos
  writePos : s.stats.writePos = s.writePos
  droppedBytes : s.stats.droppedBytes = log.droppedBytes % 2 ^ 64

/-- What one call does to the counters and to what it must not touch. -/
structure Reported (s : RingState) (c : WriteCall) : Prop where
  returns : (kndRingWrite s c).2 = true ↔
    (kndRingWrite s c).1.header.totalRecords = incr64 s.header.totalRecords
  keeps : (kndRingWrite s c).2 = false → (kndRingWrite s c).1.writePos = s.writePos ∧
    (kndRingWrite s c).1.nextSequence = s.nextSequence ∧ (kndRingWrite s c).1.data = s.data

/-- A record that the ring is too full for, where a pad would go before it or it would absorb a
tail. -/
def Overcharged (s : RingState) (c : WriteCall) : Prop :=
  let contig := s.dataSize - s.writePos % s.dataSize
  c.recLen ≤ s.dataSize ∧ s.header.readPos ≤ s.writePos ∧
    s.writePos - s.header.readPos ≤ s.dataSize ∧
    (contig < c.recLen ∧ s.avail < contig + c.recLen ∨
      c.recLen < contig ∧ contig < c.recLen + sizeofKndRecord ∧ s.avail < contig)

theorem written_add_dropped (log : Log) : log.written + log.dropped = log.length := by
  have h := log.length_eq_countP_add_countP fun e => e.2
  simpa [Log.written, Log.dropped] using h.symm

/-- With fewer than `2 ^ 64` calls the two record counters add up to their number. -/
theorem Accounted.calls {s : RingState} {log : Log} (h : Accounted s log)
    (hlt : log.length < 2 ^ 64) :
    s.stats.totalRecords + s.stats.droppedRecords = log.length := by
  have hsum := written_add_dropped log
  rw [h.totalRecords, h.droppedRecords, Nat.mod_eq_of_lt (by omega), Nat.mod_eq_of_lt (by omega)]
  exact hsum

theorem Log.written_snoc (log : Log) (c : WriteCall) (b : Bool) :
    Log.written (log ++ [(c, b)]) = log.written + if b then 1 else 0 := by
  simp [Log.written]

theorem Log.dropped_snoc (log : Log) (c : WriteCall) (b : Bool) :
    Log.dropped (log ++ [(c, b)]) = log.dropped + if b then 0 else 1 := by
  cases b <;> simp [Log.dropped]

theorem Log.droppedBytes_snoc (log : Log) (c : WriteCall) (b : Bool) :
    Log.droppedBytes (log ++ [(c, b)]) = log.droppedBytes + if b then 0 else c.fullSize := by
  cases b <;> simp [Log.droppedBytes]

theorem reported {s : RingState} (c : WriteCall) (hD : RingSize s.dataSize) : Reported s c := by
  rcases kndRingWrite_cases c hD with ⟨-, -, t, heq, hwrote⟩ | ⟨-, -, heq⟩
  · refine ⟨?_, ?_⟩ <;> rw [heq]
    · exact iff_of_true rfl hwrote.totalRecords
    · intro h
      cases h
  · refine ⟨?_, ?_⟩ <;> rw [heq]
    · refine iff_of_false (by simp) ?_
      show s.header.totalRecords ≠ incr64 s.header.totalRecords
      rw [incr64]
      omega
    · exact fun _ => ⟨rfl, rfl, rfl⟩

theorem overcharged_iff {s : RingState} (c : WriteCall) (hD : RingSize s.dataSize) :
    Overcharged s c ↔ ¬Accepts s c ∧ charged s c ≠ c.recLen := by
  have hheader : sizeofKndRecord = 24 := rfl
  have hmod : s.writePos % s.dataSize < s.dataSize := Nat.mod_lt _ (by have := hD.low; omega)
  by_cases hplace : c.recLen ≤ s.dataSize ∧ s.header.readPos ≤ s.writePos ∧
      s.writePos - s.header.readPos ≤ s.dataSize
  · have hcharged : charged s c = footprint s.dataSize s.writePos c.recLen := if_pos hplace
    have haccepts : Accepts s c ↔ footprint s.dataSize s.writePos c.recLen ≤ s.avail :=
      ⟨fun h => h.room, fun h => ⟨hplace.1, hplace.2.1, hplace.2.2, h⟩⟩
    rw [haccepts, hcharged]
    simp only [Overcharged, footprint]
    split
    · omega
    · split <;> omega
  · have hcharged : charged s c = c.recLen := if_neg hplace
    refine iff_of_false (fun h => hplace ⟨h.1, h.2.1, h.2.2.1⟩) fun h => h.2 hcharged

/-- The size of the arguments is one that 32 bits can hold. -/
def Move.Sized : Move → Prop
  | .write c => sizeofKndRecord + c.payload.len + c.data.len ≤ 2 ^ 32 - 8
  | .consume _ => True

theorem WriteCall.recLen_of_sized {c : WriteCall} (h : (Move.write c).Sized) :
    c.recLen = c.fullSize ∧ c.fullSize < 2 ^ 32 := by
  have halign := kndAlignUp_spec (sizeofKndRecord + c.payload.len + c.data.len)
  have hsize : sizeofKndRecord + c.payload.len + c.data.len ≤ 2 ^ 32 - 8 := h
  have hlt : c.fullSize < 2 ^ 32 := by
    rw [WriteCall.fullSize]
    omega
  exact ⟨c.recLen_eq.trans (Nat.mod_eq_of_lt hlt), hlt⟩

theorem logged_write {x y : RingState × Log} {c : WriteCall} (h : logged x (.write c) = some y) :
    y = ((kndRingWrite x.1 c).1, x.2 ++ [(c, (kndRingWrite x.1 c).2)]) := (Option.some.inj h).symm

theorem logged_consume {x y : RingState × Log} {rp : Nat}
    (h : logged x (.consume rp) = some y) : y = (x.1.consume rp, x.2) := by
  rw [← Option.some.inj h]
  simp [RingState.entry]

/-- The condition on a move: no record is dropped where it would cost more than its size. -/
def Charges (x : RingState × Log) : Move → Prop
  | .write c => ¬Overcharged x.1 c
  | .consume _ => True

instance Overcharged.decidable (s : RingState) (c : WriteCall) : Decidable (Overcharged s c) :=
  inferInstanceAs (Decidable (_ ∧ _ ∧ _ ∧ _))

instance Charges.decidable (x : RingState × Log) : ∀ m, Decidable (Charges x m)
  | .write c => inferInstanceAs (Decidable (¬Overcharged x.1 c))
  | .consume _ => isTrue trivial

theorem plainCall_sized {len : Nat} (h : len ≤ 2 ^ 32 - 32) : (Move.write (plainCall len)).Sized := by
  have hlen : (plainCall len).data.len = len := List.length_replicate
  show sizeofKndRecord + 0 + (plainCall len).data.len ≤ 2 ^ 32 - 8
  rw [hlen, sizeofKndRecord]
  omega

theorem charged_lt {s : RingState} {c : WriteCall} (hD : RingSize s.dataSize)
    (hrec : c.recLen < 2 ^ 32) : charged s c < 2 ^ 64 := by
  have hhigh := hD.high
  rw [charged]
  split
  · simp only [footprint]
    split
    · omega
    · split <;> omega
  · omega

/-- A written record is counted with the others. -/
theorem Accounted.wrote {s t : RingState} {log : Log} {c : WriteCall} (h : Accounted s log)
    (hwrote : Wrote s c t) : Accounted t (log ++ [(c, true)]) := by
  obtain ⟨hrecords, hdropped, hbytes, hpublished, hdroppedBytes⟩ := h
  simp only [RingState.stats] at hrecords hdropped hbytes hpublished hdroppedBytes
  constructor
  case totalRecords =>
    show t.header.totalRecords = _
    rw [hwrote.totalRecords, hrecords, Log.written_snoc]
    simp only [if_true]
    omega
  case droppedRecords =>
    show t.header.droppedRecords = _
    rw [hwrote.droppedRecords, hdropped, Log.dropped_snoc]
    rfl
  case totalBytes =>
    show t.header.totalBytes = t.writePos
    rw [hwrote.totalBytes, hwrote.writePos, hbytes]
  case writePos => exact hwrote.published
  case droppedBytes =>
    show t.header.droppedBytes = _
    rw [hwrote.droppedBytes, hdroppedBytes, Log.droppedBytes_snoc]
    rfl

/-- A dropped record is counted with its size when that is what it was charged. -/
theorem Accounted.drop_iff {s : RingState} {log : Log} {c : WriteCall} (h : Accounted s log)
    {bytes : Nat} (hbytes : bytes < 2 ^ 64) (hfull : c.fullSize < 2 ^ 64) :
    Accounted (s.drop bytes) (log ++ [(c, false)]) ↔ bytes = c.fullSize := by
  obtain ⟨hrecords, hdropped, htotal, hpublished, hdroppedBytes⟩ := h
  simp only [RingState.stats] at hrecords hdropped htotal hpublished hdroppedBytes
  constructor
  · intro hall
    have hnow := hall.droppedBytes
    rw [Log.droppedBytes_snoc] at hnow
    simp only [RingState.stats, RingState.drop, hdroppedBytes, Bool.false_eq_true, if_false] at hnow
    omega
  · rintro rfl
    constructor
    case totalRecords => exact hrecords.trans (by rw [Log.written_snoc]; rfl)
    case droppedRecords =>
      show (s.header.droppedRecords + 1) % 2 ^ 64 = _
      rw [hdropped, Log.dropped_snoc]
      simp only [Bool.false_eq_true, if_false]
      omega
    case totalBytes => exact htotal
    case writePos => exact hpublished
    case droppedBytes =>
      show (s.header.droppedBytes + c.fullSize) % 2 ^ 64 = _
      rw [hdroppedBytes, Log.droppedBytes_snoc]
      simp only [Bool.false_eq_true, if_false]
      omega

/-- A call keeps the counters in step with the log exactly when it does not overcharge. -/
theorem logged_accounted {D : Nat} {x y : RingState × Log} {m : Move} (hD : RingSize D)
    (hsized : m.Sized) (h : x.1.dataSize = D ∧ Accounted x.1 x.2) (hstep : logged x m = some y) :
    (y.1.dataSize = D ∧ Accounted y.1 y.2) ↔ Charges x m := by
  obtain ⟨hsize, h⟩ := h
  cases m with
  | consume rp =>
    rw [logged_consume hstep]
    refine iff_of_true ⟨hsize, ?_⟩ trivial
    exact ⟨h.totalRecords, h.droppedRecords, h.totalBytes, h.writePos, h.droppedBytes⟩
  | write c =>
    have hDx : RingSize x.1.dataSize := hsize.symm ▸ hD
    obtain ⟨hrec, hlt⟩ := WriteCall.recLen_of_sized hsized
    rw [logged_write hstep]
    rcases kndRingWrite_cases c hDx with ⟨haccepts, -, t, heq, hwrote⟩ | ⟨hnot, -, heq⟩
    · rw [heq]
      refine iff_of_true ⟨hwrote.dataSize.trans hsize, h.wrote hwrote⟩ ?_
      exact fun hover => ((overcharged_iff c hDx).mp hover).1 haccepts
    · have hcharged : Charges x (.write c) ↔ charged x.1 c = c.fullSize := by
        rw [Charges, overcharged_iff c hDx, not_and, not_not, hrec]
        exact ⟨fun h => h hnot, fun h _ => h⟩
      have hbound : charged x.1 c < 2 ^ 64 := charged_lt hDx (by omega)
      rw [heq, hcharged, ← h.drop_iff hbound (by omega)]
      exact and_iff_right hsize

theorem logged_total (x : RingState × Log) (m : Move) : ∃ y, logged x m = some y := by
  cases m <;> exact ⟨_, rfl⟩

theorem logged_size {x y : RingState × Log} {m : Move} (hstep : logged x m = some y) :
    y.1.dataSize = x.1.dataSize := by
  cases m with
  | write c =>
    rw [logged_write hstep]
    exact kndRingWrite_dataSize x.1 c
  | consume rp =>
    rw [logged_consume hstep]
    rfl

theorem run_size {x y : RingState × Log} {ms : List Move} (hrun : runEvents logged x ms = some y) :
    y.1.dataSize = x.1.dataSize := by
  have hstep : ∀ a m b, True → a.1.dataSize = x.1.dataSize → logged a m = some b →
      b.1.dataSize = x.1.dataSize := fun a m b _ ha hb => (logged_size hb).trans ha
  exact runEvents_invariant _ hstep rfl (fun _ _ => trivial) hrun

theorem accounted_fresh (D : Nat) : Accounted (RingState.fresh D) [] := ⟨rfl, rfl, rfl, rfl, rfl⟩

/-- Over every run of calls and any progress of the consumer: each call reports what it did and
touches nothing when it returns FALSE, and the counters agree with the calls in every state exactly
when no record is dropped where it would cost more than its own size. -/
theorem counters_iff {alloc : Allocation} {size : UInt32} {s₀ : RingState}
    (hcreate : kndRingCreate alloc size = .ok s₀) {ms : List Move} (hsized : ∀ m ∈ ms, m.Sized) :
    (EachStep logged (fun x m => ∀ c, m = .write c → Reported x.1 c) (s₀, []) ms ∧
      ∀ pre x, pre <+: ms → runEvents logged (s₀, []) pre = some x → Accounted x.1 x.2) ↔
    EachStep logged Charges (s₀, []) ms := by
  obtain ⟨hD, rfl⟩ := kndRingCreate_ok hcreate
  have hreported : EachStep logged (fun x m => ∀ c, m = .write c → Reported x.1 c)
      (RingState.fresh size.toNat, []) ms := by
    refine eachStep_iff.mpr fun pre m x _ hrun c _ => reported c ?_
    rw [run_size hrun]
    exact hD
  obtain ⟨y, hrun⟩ := runEvents_total logged_total (RingState.fresh size.toNat, ([] : Log)) ms
  have hiff := runEvents_invariant_iff_of Move.Sized
    (fun x m y hm hx hstep => logged_accounted hD hm hx hstep)
    (⟨rfl, accounted_fresh _⟩ : (RingState.fresh size.toNat).dataSize = size.toNat ∧ _)
    hsized hrun
  rw [← hiff, and_iff_right hreported]
  constructor
  · exact fun hall pre x hpre hx => ⟨run_size hx, hall pre x hpre hx⟩
  · exact fun hall pre x hpre hx => (hall pre x hpre hx).2

/-- A record, a `readPos` that makes no sense, and the same record again. -/
theorem counters_iff_two :
    let s := RingState.fresh 0x10000
    let c : WriteCall := ⟨kndRecData, 0, .bytes [1, 2, 3], .null 0, 0⟩
    let ms : List Move := [.write c, .consume 1000, .write c]
    ∃ x, runEvents logged (s, []) ms = some x ∧ x.2 = [(c, true), (c, false)] ∧
      Accounted x.1 x.2 := by
  intro s c ms
  have hcreate : kndRingCreate ⟨true, true⟩ 0x10000 = .ok s := rfl
  have hsized : ∀ m ∈ ms, m.Sized := by
    intro m hm
    simp only [ms, List.mem_cons, List.not_mem_nil, or_false] at hm
    rcases hm with rfl | rfl | rfl
    · exact Nat.le_of_ble_eq_true rfl
    · trivial
    · exact Nat.le_of_ble_eq_true rfl
  have hcharges : EachStep logged Charges (s, []) ms := by decide +kernel
  obtain ⟨x, hrun⟩ := runEvents_total logged_total (s, ([] : Log)) ms
  have hlog : (runEvents logged (s, []) ms).map Prod.snd = some [(c, true), (c, false)] := by
    decide +kernel
  rw [hrun] at hlog
  exact ⟨x, hrun, Option.some.inj hlog,
    ((counters_iff hcreate hsized).mpr hcharges).2 ms x (List.prefix_refl ms) hrun⟩

/-- A record of half the smallest ring behind one of three quarters of it. -/
theorem counters_not_always :
    ¬∀ (alloc : Allocation) (size : UInt32) (s₀ : RingState), kndRingCreate alloc size = .ok s₀ →
      ∀ ms : List Move, (∀ m ∈ ms, m.Sized) →
        ∀ pre x, pre <+: ms → runEvents logged (s₀, []) pre = some x → Accounted x.1 x.2 := by
  intro hall
  have hcreate : kndRingCreate ⟨true, true⟩ 0x10000 = .ok (RingState.fresh 0x10000) := rfl
  obtain ⟨c, hc, hcsized⟩ : ∃ c : WriteCall, c.fullSize = 0xc000 ∧ (Move.write c).Sized :=
    ⟨plainCall 0xbfe8, (plainCall_fullSize _).trans (by decide), plainCall_sized (by decide)⟩
  obtain ⟨d, hd, hdsized⟩ : ∃ d : WriteCall, d.fullSize = 0x8000 ∧ (Move.write d).Sized :=
    ⟨plainCall 0x7fe8, (plainCall_fullSize _).trans (by decide), plainCall_sized (by decide)⟩
  have hsized : ∀ m ∈ [Move.write c, Move.write d], m.Sized := by
    intro m hm
    simp only [List.mem_cons, List.not_mem_nil, or_false] at hm
    rcases hm with rfl | rfl
    · exact hcsized
    · exact hdsized
  obtain ⟨x, hx⟩ := logged_total (RingState.fresh 0x10000, []) (.write c)
  obtain ⟨y, hy⟩ := logged_total x (.write d)
  have hrun := hall ⟨true, true⟩ 0x10000 _ hcreate _ hsized
  have hfirst := hrun [.write c] x (by simp) (runEvents_cons.mpr ⟨x, hx, rfl⟩)
  have hsecond := hrun [.write c, .write d] y (List.prefix_refl _)
    (runEvents_cons.mpr ⟨x, hx, runEvents_cons.mpr ⟨y, hy, rfl⟩⟩)
  have hsize : x.1.dataSize = 0x10000 := logged_size hx
  have hysize : y.1.dataSize = 0x10000 := (logged_size hy).trans hsize
  have hcharges : ¬Overcharged x.1 d :=
    (logged_accounted ringSize_small hdsized ⟨hsize, hfirst⟩ hy).mp ⟨hysize, hsecond⟩
  have hcrec : c.recLen = 0xc000 := (WriteCall.recLen_of_sized hcsized).1.trans hc
  have hdrec : d.recLen = 0x8000 := (WriteCall.recLen_of_sized hdsized).1.trans hd
  have haccepts : Accepts (RingState.fresh 0x10000) c := fresh_accepts (by rw [hcrec]; decide)
  rcases kndRingWrite_cases c (s := RingState.fresh 0x10000) ringSize_small with
    ⟨-, -, t, heq, hwrote⟩ | ⟨hnot, -⟩
  · rw [logged_write hx, heq] at hsize hcharges
    have hposition := hwrote.writePos
    have hread := hwrote.readPos
    rw [hcrec, show footprint (RingState.fresh 0x10000).dataSize
      (RingState.fresh 0x10000).writePos 0xc000 = 0xc000 by decide] at hposition
    have hsize : t.dataSize = 0x10000 := hsize
    have hposition : t.writePos = 0xc000 := hposition
    have hread : t.header.readPos = 0 := hread
    apply hcharges
    simp only [Overcharged, RingState.avail, hsize, hposition, hread, hdrec]
    decide
  · exact hnot haccepts

end NetDebugger.Ring
