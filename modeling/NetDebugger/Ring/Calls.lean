import NetDebugger.Ring.Exactness

/-! Whole calls of `KndRingWrite` and the progress of the consumer, in any order.  `Accepts` is the
condition under which a call returns TRUE and `footprint` the room that its record then takes; a run
of the system whose calls are complete is a run of these moves. -/

namespace NetDebugger.Ring

open Lib

/-! ### One call -/

/-- The room a record takes at a position: with the pad before it, or with the tail it absorbs. -/
def footprint (dataSize wp recLen : Nat) : Nat :=
  let contig := dataSize - wp % dataSize
  if contig < recLen then contig + recLen
  else if contig < recLen + sizeofKndRecord then contig
  else recLen

theorem layout_total {D recLen : Nat} (hD : RingSize D) (wp : Nat) (hrec : recLen ≤ D) :
    (layout D wp recLen).total = footprint D wp recLen := by
  obtain ⟨-, htotal, hle, hlt, heq, hpad, hleft⟩ := layout_laid hD wp hrec
  have hmod : wp % D < D := Nat.mod_lt _ (by have := hD.low; omega)
  have hheader : sizeofKndRecord = 24 := rfl
  simp only [footprint]
  rcases hpad with ⟨hzero, hfit⟩ | ⟨hpad, hsame, hlong⟩
  · have hend := hleft hzero
    rw [if_neg (by omega)]
    split <;> omega
  · rw [if_pos hlong]
    omega

/-- A call that `KndRingWrite` accepts. -/
structure Accepts (s : RingState) (c : WriteCall) : Prop where
  size : c.recLen ≤ s.dataSize
  rp_le : s.header.readPos ≤ s.writePos
  used_le : s.writePos - s.header.readPos ≤ s.dataSize
  room : footprint s.dataSize s.writePos c.recLen ≤
    s.dataSize - (s.writePos - s.header.readPos)

/-- What a dropped call adds to `droppedBytes`. -/
def charged (s : RingState) (c : WriteCall) : Nat :=
  if c.recLen ≤ s.dataSize ∧ s.header.readPos ≤ s.writePos ∧
      s.writePos - s.header.readPos ≤ s.dataSize then
    footprint s.dataSize s.writePos c.recLen
  else c.recLen

theorem place_eq {s : RingState} (c : WriteCall) (hD : RingSize s.dataSize) :
    (Accepts s c ∧ place s.dataSize s.writePos s.header.readPos c.recLen =
      .ok (layout s.dataSize s.writePos c.recLen)) ∨
    (¬Accepts s c ∧ place s.dataSize s.writePos s.header.readPos c.recLen =
      .error (charged s c)) := by
  rw [place]
  by_cases hsize : c.recLen ≤ s.dataSize
  · have htotal := layout_total hD s.writePos hsize
    rw [if_neg (Nat.not_lt.mpr hsize)]
    by_cases hrp : s.header.readPos ≤ s.writePos ∧ s.writePos - s.header.readPos ≤ s.dataSize
    · have hcharged : charged s c = footprint s.dataSize s.writePos c.recLen := if_pos ⟨hsize, hrp⟩
      rw [if_neg (by omega), hcharged]
      simp only [htotal]
      by_cases hroom : footprint s.dataSize s.writePos c.recLen ≤
          s.dataSize - (s.writePos - s.header.readPos)
      · rw [if_neg (Nat.not_lt.mpr hroom)]
        exact .inl ⟨⟨hsize, hrp.1, hrp.2, hroom⟩, rfl⟩
      · rw [if_pos (Nat.lt_of_not_le hroom)]
        exact .inr ⟨fun h => hroom h.room, rfl⟩
    · have hcharged : charged s c = c.recLen := if_neg fun h => hrp h.2
      rw [if_pos (by omega), hcharged]
      exact .inr ⟨fun h => hrp ⟨h.rp_le, h.used_le⟩, rfl⟩
  · have hcharged : charged s c = c.recLen := if_neg fun h => hsize h.1
    rw [if_pos (Nat.lt_of_not_le hsize), hcharged]
    exact .inr ⟨fun h => hsize h.size, rfl⟩

/-- What a call that returns TRUE leaves. -/
structure Wrote (s : RingState) (c : WriteCall) (t : RingState) : Prop where
  dataSize : t.dataSize = s.dataSize
  writePos : t.writePos = (s.writePos + footprint s.dataSize s.writePos c.recLen) % 2 ^ 64
  published : t.header.writePos = t.writePos
  readPos : t.header.readPos = s.header.readPos
  totalRecords : t.header.totalRecords = (s.header.totalRecords + 1) % 2 ^ 64
  totalBytes : t.header.totalBytes =
    (s.header.totalBytes + footprint s.dataSize s.writePos c.recLen) % 2 ^ 64
  droppedRecords : t.header.droppedRecords = s.header.droppedRecords
  droppedBytes : t.header.droppedBytes = s.header.droppedBytes

/-- A call returns TRUE and writes, or returns FALSE and only bumps the drop counters. -/
theorem kndRingWrite_cases {s : RingState} (c : WriteCall) (hD : RingSize s.dataSize) :
    (Accepts s c ∧ bytesTaken s c = footprint s.dataSize s.writePos c.recLen ∧
      ∃ t, kndRingWrite s c = (t, true) ∧ Wrote s c t) ∨
    (¬Accepts s c ∧ bytesTaken s c = 0 ∧ kndRingWrite s c = (s.drop (charged s c), false)) := by
  rw [kndRingWrite, bytesTaken, beginWrite]
  rcases place_eq c hD with ⟨haccepts, heq⟩ | ⟨hnot, heq⟩
  · rw [heq]
    have htotal := layout_total hD s.writePos haccepts.size
    have hsum := (layout_laid hD s.writePos haccepts.size).total_eq
    refine .inl ⟨haccepts, ?_, _, rfl, ?_⟩
    · simp only [Pending.of_place]
      exact hsum.symm.trans htotal
    have hmove : (s.writePos + (layout s.dataSize s.writePos c.recLen).needPad +
        (layout s.dataSize s.writePos c.recLen).recLen) % 2 ^ 64 =
        (s.writePos + footprint s.dataSize s.writePos c.recLen) % 2 ^ 64 := by
      rw [← htotal, hsum, Nat.add_assoc]
    constructor
    case writePos =>
      simp only [commitWrite, Pending.of_place]
      exact hmove
    case totalBytes =>
      simp only [commitWrite, Pending.of_place, htotal]
    all_goals rfl
  · rw [heq]
    exact .inr ⟨hnot, rfl, rfl⟩

theorem kndRingWrite_true_iff {s : RingState} (c : WriteCall) (hD : RingSize s.dataSize) :
    (kndRingWrite s c).2 = true ↔ Accepts s c := by
  rcases kndRingWrite_cases c hD with ⟨haccepts, -, t, heq, -⟩ | ⟨hnot, -, heq⟩
  · rw [heq]
    exact iff_of_true rfl haccepts
  · rw [heq]
    exact iff_of_false (by simp) hnot

/-! ### Runs of calls -/

/-- A call of the producer, or a position that the consumer publishes. -/
inductive Move
  | write (c : WriteCall)
  | consume (rp : Nat)

def RingState.consume (s : RingState) (rp : Nat) : RingState :=
  { s with header := { s.header with readPos := rp } }

def RingState.move (s : RingState) : Move → Option RingState
  | .write c => some (kndRingWrite s c).1
  | .consume rp => some (s.consume rp)

/-- The bytes that a move produces. -/
def RingState.moved (s : RingState) : Move → Nat
  | .write c => bytesTaken s c
  | .consume _ => 0

/-- The ring beside the number of bytes produced so far, counted without wrapping. -/
def metered : RingState × Nat → Move → Option (RingState × Nat) :=
  withHistory RingState.move fun n s m => n + s.moved m

/-- An honest consumer stays where it is, or moves on to a position that was produced. -/
def Honest (x : RingState × Nat) : Move → Prop
  | .write _ => True
  | .consume rp => x.1.header.readPos ≤ rp ∧ rp ≤ x.2 ∧ rp < 2 ^ 64

/-- The private position and what is published of it, in every state of a run. -/
structure Steady (D : Nat) (x : RingState × Nat) : Prop where
  size : x.1.dataSize = D
  position : x.1.writePos = x.2 % 2 ^ 64
  published : x.1.header.writePos = x.1.writePos
  aligned : Aligned D x.1.writePos

/-- With an honest consumer. -/
structure Sound (D : Nat) (x : RingState × Nat) : Prop extends Steady D x where
  readPos_le : x.1.header.readPos ≤ x.2
  readPos_lt : x.1.header.readPos < 2 ^ 64
  used_le : x.2 ≤ x.1.header.readPos + D

theorem sound_fresh {D : Nat} (hD : RingSize D) : Sound D (RingState.fresh D, 0) :=
  ⟨⟨rfl, rfl, rfl, aligned_zero hD⟩, Nat.le_refl _, Nat.two_pow_pos 64, Nat.zero_le _⟩

/-- A position that has wrapped is behind the consumer's, and no call is accepted any more. -/
theorem Sound.below {D : Nat} {x : RingState × Nat} {c : WriteCall} (hD : RingSize D)
    (h : Sound D x) (haccepts : Accepts x.1 c) : x.1.writePos = x.2 ∧ x.2 < 2 ^ 64 := by
  have hhigh := hD.high
  have hposition := h.position
  have hreadPos := h.readPos_lt
  have hused := h.used_le
  have hrp := haccepts.rp_le
  omega

theorem footprint_aligned {D wp recLen : Nat} (hD : RingSize D) (ha : Aligned D wp)
    (hrec : recLen % 8 = 0) (hroom : footprint D wp recLen ≤ D) :
    Aligned D (wp + footprint D wp recLen) := by
  have hheader : sizeofKndRecord = 24 := rfl
  have hlow := hD.low
  have hD8 : D % 8 = 0 := Nat.mod_eq_zero_of_dvd (hD.dvd (show 3 ≤ 16 by decide))
  have hmod : wp % D < D := Nat.mod_lt _ (by omega)
  have hcell8 : wp % D % 8 = 0 := (hD.mod_eight wp).trans ha.1
  obtain ⟨ha8, haroom⟩ := ha
  simp only [footprint] at hroom ⊢
  by_cases hwrap : D - wp % D < recLen
  · -- the record starts over at offset 0
    rw [if_pos hwrap] at hroom ⊢
    have hzero : (wp + (D - wp % D)) % D = 0 := cell_full (by omega)
    have hcell : (wp + (D - wp % D) + recLen) % D = recLen := by
      rw [cell_add (by omega), hzero, Nat.zero_add]
    rw [← Nat.add_assoc]
    refine ⟨by omega, ?_⟩
    rw [hcell]
    omega
  · rw [if_neg hwrap] at hroom ⊢
    by_cases htail : D - wp % D < recLen + sizeofKndRecord
    · have hcell : (wp + (D - wp % D)) % D = 0 := cell_full (by omega)
      rw [if_pos htail]
      refine ⟨by omega, ?_⟩
      rw [hcell]
      omega
    · have hcell : (wp + recLen) % D = wp % D + recLen := cell_add (by omega)
      rw [if_neg htail]
      refine ⟨by omega, ?_⟩
      rw [hcell]
      omega

theorem aligned_mod {D n : Nat} (hD : RingSize D) (h : Aligned D n) : Aligned D (n % 2 ^ 64) := by
  refine ⟨?_, ?_⟩
  · have := h.1
    omega
  · rw [Nat.mod_mod_of_dvd n hD.dvd_two_pow_64]
    exact h.2

theorem WriteCall.recLen_mod (c : WriteCall) : c.recLen % 8 = 0 := by
  have := (kndAlignUp_spec (sizeofKndRecord + c.payload.len + c.data.len)).2.2
  rw [WriteCall.recLen]
  omega

theorem metered_write {x y : RingState × Nat} {c : WriteCall}
    (h : metered x (.write c) = some y) :
    y = ((kndRingWrite x.1 c).1, x.2 + bytesTaken x.1 c) := (Option.some.inj h).symm

theorem metered_consume {x y : RingState × Nat} {rp : Nat}
    (h : metered x (.consume rp) = some y) : y = (x.1.consume rp, x.2) := (Option.some.inj h).symm

/-- What a run keeps whatever the consumer publishes. -/
theorem metered_steady {D : Nat} {x y : RingState × Nat} {m : Move} (hD : RingSize D)
    (h : Steady D x) (hstep : metered x m = some y) : Steady D y := by
  cases m with
  | consume rp =>
    rw [metered_consume hstep]
    exact ⟨h.size, h.position, h.published, h.aligned⟩
  | write c =>
    rw [metered_write hstep]
    have hDs : RingSize x.1.dataSize := h.size.symm ▸ hD
    rcases kndRingWrite_cases c hDs with ⟨haccepts, htaken, t, heq, hwrote⟩ | ⟨-, htaken, heq⟩
    · have hroom := haccepts.room
      have haligned := footprint_aligned hD h.aligned c.recLen_mod
        (by rw [← h.size]; exact hroom.trans (Nat.sub_le ..))
      have hposition := h.position
      have hmoved := hwrote.writePos
      rw [heq, htaken]
      refine ⟨hwrote.dataSize.trans h.size, ?_, hwrote.published, ?_⟩
      · simp only
        omega
      · rw [hmoved, h.size]
        exact aligned_mod hD haligned
    · rw [heq, htaken]
      exact ⟨h.size, h.position, h.published, h.aligned⟩

theorem metered_sound {D : Nat} {x y : RingState × Nat} {m : Move} (hD : RingSize D)
    (hhonest : Honest x m) (h : Sound D x) (hstep : metered x m = some y) : Sound D y := by
  have hsteady := metered_steady hD h.toSteady hstep
  have hused := h.used_le
  cases m with
  | consume rp =>
    obtain ⟨hge, hle, hlt⟩ := hhonest
    obtain rfl := metered_consume hstep
    refine { hsteady with readPos_le := hle, readPos_lt := hlt, used_le := ?_ }
    show x.2 ≤ rp + D
    omega
  | write c =>
    obtain rfl := metered_write hstep
    have hDs : RingSize x.1.dataSize := h.size.symm ▸ hD
    rcases kndRingWrite_cases c hDs with ⟨haccepts, htaken, t, heq, hwrote⟩ | ⟨-, htaken, heq⟩
    · have hbelow := h.below hD haccepts
      have hroom := haccepts.room
      have hrp := haccepts.rp_le
      have hrpUsed := haccepts.used_le
      have hsize := h.size
      rw [heq, htaken] at hsteady ⊢
      refine { hsteady with readPos_le := ?_, readPos_lt := ?_, used_le := ?_ }
      · show t.header.readPos ≤ x.2 + footprint x.1.dataSize x.1.writePos c.recLen
        rw [hwrote.readPos]
        exact Nat.le_trans h.readPos_le (Nat.le_add_right ..)
      · show t.header.readPos < 2 ^ 64
        rw [hwrote.readPos]
        exact h.readPos_lt
      · show x.2 + footprint x.1.dataSize x.1.writePos c.recLen ≤ t.header.readPos + D
        rw [hwrote.readPos]
        omega
    · rw [heq, htaken] at hsteady ⊢
      exact { hsteady with readPos_le := h.readPos_le, readPos_lt := h.readPos_lt, used_le := hused }

/-- A run of calls and of honest progress. -/
structure Reaches (s₀ : RingState) (ms : List Move) (x : RingState × Nat) : Prop where
  honest : EachStep metered Honest (s₀, 0) ms
  run : runEvents metered (s₀, 0) ms = some x

theorem Reaches.sound {D : Nat} {ms : List Move} {x : RingState × Nat} (hD : RingSize D)
    (h : Reaches (RingState.fresh D) ms x) : Sound D x :=
  runEvents_invariant_of (fun _ _ _ hhonest hs hstep => metered_sound hD hhonest hs hstep)
    (sound_fresh hD) h.honest h.run

theorem Reaches.nil (s₀ : RingState) : Reaches s₀ [] (s₀, 0) := ⟨trivial, rfl⟩

theorem Reaches.snoc {s₀ : RingState} {ms : List Move} {x y : RingState × Nat} {m : Move}
    (h : Reaches s₀ ms x) (hhonest : Honest x m) (hstep : metered x m = some y) :
    Reaches s₀ (ms ++ [m]) y := by
  refine ⟨eachStep_append.mpr ⟨h.honest, fun t ht => ?_⟩,
    runEvents_append.mpr ⟨x, h.run, runEvents_cons.mpr ⟨y, hstep, rfl⟩⟩⟩
  obtain rfl := Option.some.inj (h.run.symm.trans ht)
  exact ⟨hhonest, fun _ _ => trivial⟩

/-! ### The system as a run of whole calls -/

/-- The ring as the pending call will leave it, with the bytes produced by then. -/
def System.whole (y : System) : RingState × Nat :=
  match y.producer with
  | none => (y.ring, produced y.accepted)
  | some p => (commitWrite { y.ring with data := y.ring.data.putAll p.stores } p,
      produced y.accepted + (p.place.needPad + p.place.recLen))

theorem System.whole_idle {y : System} (h : y.producer = none) :
    y.whole = (y.ring, produced y.accepted) := by
  simp only [System.whole, h]

/-- A call happens as a whole when it takes the lock. -/
theorem whole_begin {y : System} (c : WriteCall) (h : y.producer = none) :
    metered y.whole (.write c) = some (y.begin c).whole := by
  rw [System.whole_idle h, System.begin]
  simp only [metered, withHistory, RingState.move, RingState.moved, kndRingWrite, bytesTaken]
  cases beginWrite y.ring c with
  | error t => simp [System.whole, h]
  | ok p => simp [System.whole]

/-- What the consumer publishes was produced before. -/
theorem whole_release {D : Nat} {y : System} {wp rp : Nat} (hinv : Inv D y)
    (hc : y.consumer = .walking wp rp) :
    Honest y.whole (.consume rp) ∧ metered y.whole (.consume rp) = some (y.release rp).whole := by
  obtain ⟨cur, h⟩ := hinv
  have hge := h.cursor_ge
  have hlt := h.cursor_lt
  have hspan := h.span
  rw [hc] at hge hlt hspan
  simp only [Poll.cursor] at hge hlt hspan
  cases hp : y.producer with
  | none =>
    have hwhole : (y.release rp).whole = (y.ring.consume rp, produced y.accepted) :=
      System.whole_idle hp
    rw [System.whole_idle hp, hwhole]
    exact ⟨⟨hge, by simp only; omega, hlt⟩, rfl⟩
  | some p =>
    refine ⟨⟨?_, ?_, hlt⟩, ?_⟩
    · simp only [System.whole, hp]
      exact hge
    · simp only [System.whole, hp]
      omega
    · simp only [System.whole, System.release, hp]
      rfl

/-- A step of the system is at most one move. -/
theorem whole_step {D : Nat} {y z : System} {e : Event} (hinv : Inv D y)
    (hstep : y.step e = some z) :
    z.whole = y.whole ∨ ∃ m, Honest y.whole m ∧ metered y.whole m = some z.whole := by
  cases System.step_cases hstep with
  | call c hp => exact .inr ⟨.write c, trivial, whole_begin c hp⟩
  | store p st rest hp hst =>
    left
    simp only [System.whole, System.store, hp, hst]
    rfl
  | publish p hp hst =>
    left
    simp only [System.whole, System.publish, hp, hst, produced_snoc]
    rfl
  | sample hc => exact .inl rfl
  | walk wp rp hc hlt =>
    left
    rw [System.walk]
    split <;> rfl
  | copy wp rp len got hc hlt => exact .inl rfl
  | deliver wp rp len got hc hle => exact .inl rfl
  | release wp rp hc hle => exact .inr ⟨.consume rp, whole_release hinv hc⟩

/-- Every run of the system is a run of whole calls and honest progress. -/
theorem whole_reached {D : Nat} {es : List Event} {y : System} (hD : RingSize D)
    (hlegal : ∀ e ∈ es, e.Legal)
    (hrun : runEvents System.step (System.initial (RingState.fresh D)) es = some y) :
    ∃ ms, Reaches (RingState.fresh D) ms y.whole := by
  have hinit : Inv D (System.initial (RingState.fresh D)) ∧
      ∃ ms, Reaches (RingState.fresh D) ms (System.initial (RingState.fresh D)).whole :=
    ⟨inv_initial hD, [], Reaches.nil _⟩
  have hstep : ∀ y e z, Event.Legal e →
      (Inv D y ∧ ∃ ms, Reaches (RingState.fresh D) ms y.whole) → System.step y e = some z →
      Inv D z ∧ ∃ ms, Reaches (RingState.fresh D) ms z.whole := by
    rintro y e z hlegal ⟨hinv, ms, hms⟩ hstep
    refine ⟨(step_refines hD hlegal hinv hstep).1, ?_⟩
    rcases whole_step hinv hstep with hsame | ⟨m, hhonest, hmove⟩
    · rw [hsame]
      exact ⟨ms, hms⟩
    · exact ⟨ms ++ [m], hms.snoc hhonest hmove⟩
  exact (runEvents_invariant _ hstep hinit hlegal hrun).2

end NetDebugger.Ring
