import NetDebugger.Ring.Exactness

/-! `KndClient::poll` on a ring whose contents and whose `readPos` may be anything.  The loop walks
from length to length: where the walk ends decides what it publishes, and so whether `KndRingWrite`
takes records again.  A header that does not lie in the mapped data area cannot be read. -/

namespace NetDebugger.Ring

open Lib

/-- How far the loop goes at a position, unless it resyncs. -/
def Turn.advance : Turn → Option Nat
  | .resync => none
  | .skip len => some len
  | .record len => some len

/-- How far the loop reads a header: its length, and its type if the length is plausible. -/
def Turn.read : Turn → Nat
  | .resync => 4
  | .skip _ | .record _ => 6

/-- `rp & mask`. -/
def offsetOf (dataSize x : Nat) : Nat := (x &&& (dataSize - 1)) % 2 ^ 32

/-- What the loop reads of the header at a position is in the data area. -/
def Mapped (data : Memory) (dataSize x : Nat) : Prop :=
  offsetOf dataSize x + (pollTurn data dataSize x).read ≤ dataSize

instance (data : Memory) (dataSize x : Nat) : Decidable (Mapped data dataSize x) :=
  inferInstanceAs (Decidable (_ ≤ _))

/-- The positions that the loop comes to, from the position it starts at. -/
inductive Walk (data : Memory) (dataSize wp : Nat) : Nat → Nat → Prop
  | here (rp : Nat) : Walk data dataSize wp rp rp
  | next {rp x len : Nat} (hlt : rp < wp) (hlen : (pollTurn data dataSize rp).advance = some len)
      (h : Walk data dataSize wp ((rp + len) % 2 ^ 64) x) : Walk data dataSize wp rp x

/-- The loop of `KndClient::poll`: the offset and the length of each record that it hands to the
callback, and the position it ends with. There is no result where the loop reads behind the data
area. -/
def pollLoop (data : Memory) (dataSize wp : Nat) : Nat → Nat → Option (List (Nat × Nat) × Nat)
  | 0, _ => none
  | fuel + 1, rp =>
    if rp < wp then
      if Mapped data dataSize rp then
        match pollTurn data dataSize rp with
        | .resync => some ([], wp)
        | .skip len => pollLoop data dataSize wp fuel ((rp + len) % 2 ^ 64)
        | .record len =>
          (pollLoop data dataSize wp fuel ((rp + len) % 2 ^ 64)).map fun (handed, p) =>
            ((offsetOf dataSize rp, len) :: handed, p)
      else none
    else some ([], rp)

/-- `KndClient::poll` of a mapped ring. -/
def RingState.poll (fuel : Nat) (s : RingState) : Option (List (Nat × Nat) × RingState) :=
  if s.dataSize = 0 then some ([], s)
  else
    (pollLoop s.data s.dataSize s.header.writePos fuel s.header.readPos).map fun (handed, rp) =>
      (handed, { s with header := { s.header with readPos := rp } })

/-- The sanity check of `KndRingWrite` on the consumer's position. -/
def RingState.Sane (s : RingState) : Prop :=
  s.header.readPos ≤ s.writePos ∧ s.writePos - s.header.readPos ≤ s.dataSize

/-- The lengths from `rp` on lead to `wp` itself, or to an implausible length before it, and every
header on the way is in the data area. -/
structure Lands (data : Memory) (dataSize wp rp : Nat) : Prop where
  mapped : ∀ x, Walk data dataSize wp rp x → x < wp → Mapped data dataSize x
  ends : ∃ x, Walk data dataSize wp rp x ∧ (x = wp ∨ x < wp ∧ pollTurn data dataSize x = .resync)

variable {data : Memory} {dataSize wp rp : Nat}

/-- One turn of the loop. -/
theorem pollLoop_advance {len fuel : Nat} (hlt : rp < wp) (hmapped : Mapped data dataSize rp)
    (hlen : (pollTurn data dataSize rp).advance = some len) :
    (pollLoop data dataSize wp (fuel + 1) rp).map Prod.snd =
      (pollLoop data dataSize wp fuel ((rp + len) % 2 ^ 64)).map Prod.snd := by
  rw [pollLoop, if_pos hlt, if_pos hmapped]
  cases hturn : pollTurn data dataSize rp with
  | resync => rw [hturn] at hlen; contradiction
  | skip n =>
    rw [hturn] at hlen
    obtain rfl := Option.some.inj hlen
    rfl
  | record n =>
    rw [hturn] at hlen
    obtain rfl := Option.some.inj hlen
    simp only [Option.map_map]
    rfl

theorem pollLoop_mapped {fuel p : Nat} (hlt : rp < wp)
    (h : (pollLoop data dataSize wp fuel rp).map Prod.snd = some p) : Mapped data dataSize rp := by
  cases fuel with
  | zero => simp [pollLoop] at h
  | succ fuel =>
    by_contra hnot
    rw [pollLoop, if_pos hlt, if_neg hnot] at h
    contradiction

/-- Where the loop stops, what it is left with there, and that it could read its way. -/
theorem pollLoop_stop {fuel p : Nat}
    (h : (pollLoop data dataSize wp fuel rp).map Prod.snd = some p) :
    (∀ x, Walk data dataSize wp rp x → x < wp → Mapped data dataSize x) ∧
      ∃ x, Walk data dataSize wp rp x ∧
        (wp ≤ x ∧ p = x ∨ x < wp ∧ pollTurn data dataSize x = .resync ∧ p = wp) := by
  induction fuel generalizing rp with
  | zero => simp [pollLoop] at h
  | succ fuel ih =>
    by_cases hlt : rp < wp
    · have hmapped := pollLoop_mapped hlt h
      cases hlen : (pollTurn data dataSize rp).advance with
      | none =>
        have hresync : pollTurn data dataSize rp = .resync := by
          cases hturn : pollTurn data dataSize rp <;> simp [hturn, Turn.advance] at hlen
          rfl
        constructor
        · intro x hwalk _
          cases hwalk with
          | here => exact hmapped
          | next _ hlen' _ => cases hlen.symm.trans hlen'
        · refine ⟨rp, .here rp, .inr ⟨hlt, hresync, ?_⟩⟩
          rw [pollLoop, if_pos hlt, if_pos hmapped, hresync] at h
          exact (Option.some.inj h).symm
      | some len =>
        rw [pollLoop_advance hlt hmapped hlen] at h
        obtain ⟨hall, x, hwalk, hstop⟩ := ih h
        refine ⟨fun y hy hylt => ?_, x, .next hlt hlen hwalk, hstop⟩
        cases hy with
        | here => exact hmapped
        | next _ hlen' hy =>
          obtain rfl := Option.some.inj (hlen.symm.trans hlen')
          exact hall y hy hylt
    · constructor
      · intro x hwalk hxlt
        cases hwalk with
        | here => exact absurd hxlt hlt
        | next hlt' _ _ => exact absurd hlt' hlt
      · refine ⟨rp, .here rp, .inl ⟨by omega, ?_⟩⟩
        rw [pollLoop, if_neg hlt] at h
        exact (Option.some.inj h).symm

/-- The loop comes to the end of its walk. -/
theorem pollLoop_of_walk {x : Nat} (h : Walk data dataSize wp rp x)
    (hmapped : ∀ y, Walk data dataSize wp rp y → y < wp → Mapped data dataSize y)
    (hstop : wp ≤ x ∨ pollTurn data dataSize x = .resync) :
    ∃ fuel, (pollLoop data dataSize wp fuel rp).map Prod.snd = some (if x < wp then wp else x) := by
  induction h with
  | here rp =>
    refine ⟨1, ?_⟩
    by_cases hlt : rp < wp
    · have hresync := hstop.resolve_left (by omega)
      rw [pollLoop, if_pos hlt, if_pos hlt, if_pos (hmapped rp (.here rp) hlt), hresync]
      rfl
    · rw [pollLoop, if_neg hlt, if_neg hlt]
      rfl
  | next hlt hlen _ ih =>
    obtain ⟨fuel, hfuel⟩ := ih (fun y hy => hmapped y (.next hlt hlen hy)) hstop
    exact ⟨fuel + 1, (pollLoop_advance hlt (hmapped _ (.here _) hlt) hlen).trans hfuel⟩

theorem pollLoop_lands_iff : (∃ fuel, (pollLoop data dataSize wp fuel rp).map Prod.snd = some wp) ↔
    Lands data dataSize wp rp := by
  constructor
  · rintro ⟨fuel, h⟩
    obtain ⟨hmapped, x, hwalk, ⟨-, rfl⟩ | ⟨hlt, hresync, -⟩⟩ := pollLoop_stop h
    · exact ⟨hmapped, _, hwalk, .inl rfl⟩
    · exact ⟨hmapped, x, hwalk, .inr ⟨hlt, hresync⟩⟩
  · rintro ⟨hmapped, x, hwalk, hstop⟩
    obtain ⟨fuel, h⟩ := pollLoop_of_walk hwalk hmapped (by
      rcases hstop with rfl | ⟨-, hresync⟩
      · exact .inl le_rfl
      · exact .inr hresync)
    refine ⟨fuel, h.trans ?_⟩
    rcases hstop with rfl | ⟨hlt, -⟩
    · rw [if_neg (lt_irrefl _)]
    · rw [if_pos hlt]

/-- The producer's own position is not the poll's to change. -/
theorem poll_writePos {s t : RingState} {fuel : Nat} {handed : List (Nat × Nat)}
    (h : s.poll fuel = some (handed, t)) : t.writePos = s.writePos := by
  rw [RingState.poll] at h
  split at h
  · exact (Prod.mk.inj (Option.some.inj h)).2 ▸ rfl
  · obtain ⟨_, -, heq⟩ := Option.map_eq_some_iff.mp h
    exact (Prod.mk.inj heq).2 ▸ rfl

theorem poll_readPos_iff {s : RingState} (hmapped : s.dataSize ≠ 0) :
    (∃ fuel handed t, s.poll fuel = some (handed, t) ∧ t.header.readPos = s.header.writePos) ↔
      Lands s.data s.dataSize s.header.writePos s.header.readPos := by
  rw [← pollLoop_lands_iff]
  constructor
  · rintro ⟨fuel, handed, t, hpoll, hpos⟩
    rw [RingState.poll, if_neg hmapped] at hpoll
    obtain ⟨⟨handed', rp⟩, hloop, heq⟩ := Option.map_eq_some_iff.mp hpoll
    obtain ⟨rfl, rfl⟩ := Prod.mk.inj heq
    refine ⟨fuel, ?_⟩
    rw [hloop, ← hpos]
    rfl
  · rintro ⟨fuel, h⟩
    obtain ⟨⟨handed, rp⟩, hloop, hrp⟩ := Option.map_eq_some_iff.mp h
    obtain rfl : rp = s.header.writePos := hrp
    refine ⟨fuel, handed, { s with header := { s.header with readPos := s.header.writePos } }, ?_, rfl⟩
    rw [RingState.poll, if_neg hmapped, hloop]
    rfl

/-- A poll recovers the ring exactly when the walk lands. -/
theorem poll_recovers_iff {s : RingState} (hmapped : s.dataSize ≠ 0)
    (hpublished : s.header.writePos = s.writePos) :
    (∃ fuel handed t, s.poll fuel = some (handed, t) ∧
      t.header.readPos = s.header.writePos ∧ t.Sane) ↔
      Lands s.data s.dataSize s.header.writePos s.header.readPos := by
  rw [← poll_readPos_iff hmapped]
  refine exists_congr fun fuel => exists_congr fun handed => exists_congr fun t =>
    and_congr_right fun hpoll => and_iff_left_of_imp fun hpos => ?_
  rw [RingState.Sane, hpos, hpublished, poll_writePos hpoll]
  exact ⟨le_rfl, by omega⟩

/-! ### Where the walk lands -/

theorem walk_onRing {D : Nat} (hD : RingSize D) {m : Memory} {cur : List Piece} {p : Nat}
    (h : OnRing D m p cur) (hend : p + span cur < 2 ^ 64) :
    Walk m D (p + span cur) p (p + span cur) := by
  induction cur generalizing p with
  | nil => exact .here p
  | cons x xs ih =>
    obtain ⟨hfits, hlies, hrest⟩ := h
    have hlow := hfits.low
    rw [span_cons] at hend ⊢
    have hlen : (pollTurn m D p).advance = some x.len := by
      rw [pollTurn_piece hD hfits hlies]
      cases x <;> rfl
    apply Walk.next (by omega) hlen
    rw [Nat.mod_eq_of_lt (by omega), show p + (x.len + span xs) = p + x.len + span xs by omega]
    exact ih hrest (by omega)

theorem mapped_piece {D : Nat} (hD : RingSize D) {m : Memory} {p : Nat} {x : Piece}
    (hfits : x.Fits D p) (hlies : Lies m (p % D) x.bytes) : Mapped m D p := by
  have hlow := hfits.low
  have hhigh := hfits.high
  have hsize := hD.high
  have hoff : offsetOf D p = p % D := by
    rw [offsetOf, and_mask_eq_mod hD.power]
    exact Nat.mod_eq_of_lt (by omega)
  have hread : (pollTurn m D p).read = 6 := by
    rw [pollTurn_piece hD hfits hlies]
    cases x <;> rfl
  rw [Mapped, hoff, hread]
  omega

/-- The headers on the way are those of the pieces. -/
theorem mapped_onRing {D : Nat} (hD : RingSize D) {m : Memory} {cur : List Piece} {p x : Nat}
    (h : OnRing D m p cur) (hend : p + span cur < 2 ^ 64) (hwalk : Walk m D (p + span cur) p x)
    (hlt : x < p + span cur) : Mapped m D x := by
  induction cur generalizing p with
  | nil =>
    cases hwalk with
    | here => exact absurd hlt (Nat.lt_irrefl _)
    | next hlt' _ _ => exact absurd hlt' (Nat.lt_irrefl _)
  | cons y ys ih =>
    obtain ⟨hfits, hlies, hrest⟩ := h
    rw [span_cons] at hend hwalk hlt
    cases hwalk with
    | here => exact mapped_piece hD hfits hlies
    | next _ hlen hwalk =>
      have hturn : (pollTurn m D p).advance = some y.len := by
        rw [pollTurn_piece hD hfits hlies]
        cases y <;> rfl
      obtain rfl := Option.some.inj (hturn.symm.trans hlen)
      rw [Nat.mod_eq_of_lt (by omega), ← Nat.add_assoc] at hwalk
      exact ih hrest (by omega) hwalk (by omega)

/-- Contents that only the driver has written make the walk land, wherever the two are. -/
theorem lands_of_inv {D : Nat} (hD : RingSize D) {y : System} (hinv : Inv D y)
    (hidle : y.consumer = .idle) (hbytes : produced y.accepted < 2 ^ 64) :
    Lands y.ring.data D y.ring.header.writePos y.ring.header.readPos := by
  obtain ⟨cur, hinv⟩ := hinv
  have hspan := hinv.span
  have honRing := hinv.onRing
  rw [hidle, Poll.cursor] at hspan honRing
  rw [hinv.published, Nat.mod_eq_of_lt hbytes, ← hspan]
  have hend : y.ring.header.readPos + span cur < 2 ^ 64 := by omega
  exact ⟨fun x hwalk hlt => mapped_onRing hD honRing hend hwalk hlt,
    _, walk_onRing hD honRing hend, .inl rfl⟩

/-! ### Where it does not -/

/-- The consumer has published a position behind which nothing is written yet. -/
structure RingState.Stuck (s : RingState) : Prop where
  ahead : s.writePos < s.header.readPos
  published : s.header.writePos = s.writePos

/-- The calls of both sides, one after the other. -/
inductive Op
  | write (c : WriteCall)
  | poll (fuel : Nat)

def RingState.op (s : RingState) : Op → Option RingState
  | .write c => some (kndRingWrite s c).1
  | .poll fuel => (s.poll fuel).map Prod.snd

theorem RingState.Stuck.beginWrite {s : RingState} (h : s.Stuck) (c : WriteCall) :
    ∃ bytes, beginWrite s c = .error (s.drop bytes) := by
  have hplace : place s.dataSize s.writePos s.header.readPos c.recLen = .error c.recLen := by
    rw [place, if_pos (Or.inl h.ahead), ite_self]
  exact ⟨c.recLen, by rw [Ring.beginWrite, hplace]⟩

theorem RingState.Stuck.write {s : RingState} (h : s.Stuck) (c : WriteCall) :
    (kndRingWrite s c).2 = false ∧ (kndRingWrite s c).1.Stuck := by
  obtain ⟨bytes, hbegin⟩ := h.beginWrite c
  rw [kndRingWrite, hbegin]
  exact ⟨rfl, h.ahead, h.published⟩

theorem RingState.Stuck.poll {s t : RingState} {fuel : Nat} {handed : List (Nat × Nat)}
    (h : s.Stuck) (hpoll : s.poll fuel = some (handed, t)) : t = s := by
  have hnot : ¬s.header.readPos < s.header.writePos := by
    rw [h.published]
    have := h.ahead
    omega
  rw [RingState.poll] at hpoll
  split at hpoll
  · exact (congrArg Prod.snd (Option.some.inj hpoll)).symm
  · cases fuel with
    | zero => simp [pollLoop] at hpoll
    | succ fuel =>
      rw [pollLoop, if_neg hnot] at hpoll
      exact (congrArg Prod.snd (Option.some.inj hpoll)).symm

theorem RingState.Stuck.op {s t : RingState} {o : Op} (h : s.Stuck) (hop : s.op o = some t) :
    t.Stuck := by
  cases o with
  | write c => exact Option.some.inj hop ▸ (h.write c).2
  | poll fuel =>
    obtain ⟨⟨handed, t'⟩, hpoll, rfl⟩ := Option.map_eq_some_iff.mp hop
    rw [h.poll hpoll]
    exact h

/-- From then on every record is dropped, whatever the two sides do. -/
theorem stuck_forever {s t : RingState} {os : List Op} (h : s.Stuck)
    (hrun : runEvents RingState.op s os = some t) (c : WriteCall) : (kndRingWrite t c).2 = false := by
  have hstuck : t.Stuck :=
    runEvents_invariant (fun _ => True) (fun _ _ _ _ hs hop => hs.op hop) h (fun _ _ => trivial) hrun
  exact (hstuck.write c).1

/-- A ring with one record of `length` where 24 bytes are written. -/
def oneRecord (length : Nat) : RingState :=
  { RingState.fresh 0x10000 with
    data := pointer (KndRecord.mk length kndRecConnClose 0 1 0).bytes
    writePos := 24
    header := { (RingState.fresh 0x10000).header with writePos := 24 } }

theorem oneRecord_lands : Lands (oneRecord 24).data (oneRecord 24).dataSize 24 0 := by
  have hlen : (pollTurn (oneRecord 24).data (oneRecord 24).dataSize 0).advance = some 24 := by decide
  refine ⟨fun x hwalk hlt => ?_, 24, .next (by decide) hlen (.here 24), .inl rfl⟩
  cases hwalk with
  | here => decide
  | next _ hlen' hwalk =>
    obtain rfl := Option.some.inj (hlen.symm.trans hlen')
    cases hwalk with
    | here => exact absurd hlt (by decide)
    | next hlt' _ _ => exact absurd hlt' (by decide)

theorem poll_recovers_oneRecord : ∃ fuel handed t, (oneRecord 24).poll fuel = some (handed, t) ∧
    t.header.readPos = (oneRecord 24).header.writePos ∧ t.Sane :=
  (poll_recovers_iff (by decide) rfl).mpr oneRecord_lands

theorem oneRecord_overshoots :
    ¬Lands (oneRecord 32).data (oneRecord 32).dataSize 24 0 := by
  have hturn : pollTurn (oneRecord 32).data (oneRecord 32).dataSize 0 = .record 32 := by decide
  rintro ⟨-, x, hwalk, hstop⟩
  cases hwalk with
  | here rp => simp [hturn] at hstop
  | next hlt hlen hwalk =>
    rw [hturn] at hlen
    obtain rfl := Option.some.inj hlen
    cases hwalk with
    | here rp => simp at hstop
    | next hlt hlen hwalk => omega

/-- A length that overshoots by 8 bytes leaves the consumer ahead of the producer. -/
theorem poll_overshoots : ¬ ∀ s : RingState, s.dataSize ≠ 0 → s.header.writePos = s.writePos →
    ∃ fuel handed t, s.poll fuel = some (handed, t) ∧
      t.header.readPos = s.header.writePos ∧ t.Sane := by
  intro h
  apply oneRecord_overshoots
  obtain ⟨fuel, handed, t, hpoll, hpos, -⟩ := h (oneRecord 32) (by decide) rfl
  exact (poll_readPos_iff (by decide)).mp ⟨fuel, handed, t, hpoll, hpos⟩

end NetDebugger.Ring
