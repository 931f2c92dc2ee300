import NetDebugger.Ring.Pieces

/-! The ring is a first-in first-out channel.  Positions are counted without wrapping: the
invariant says that from the consumer's cursor to `produced` the data area holds exactly the
records still on their way, and that a pending call stores behind them only. -/

namespace NetDebugger.Ring

open Lib

/-- The calls of the driver's callouts. -/
structure WriteCall.Legal (c : WriteCall) : Prop extends WriteCall.Admissible c where
  type : c.type = kndRecConnOpen ∨ c.type = kndRecConnClose ∨ c.type = kndRecData

theorem WriteCall.Legal.not_wrap {c : WriteCall} (h : c.Legal) : c.type ≠ kndRecWrap := by
  rcases h.type with ht | ht | ht <;> rw [ht] <;> decide

/-- A delivered record is that of an accepted call. -/
structure Carries (a : Accepted) (bs : List UInt8) : Prop where
  length : bs.length = a.place.recLen
  type : (KndRecord.read (pointer bs)).type = a.call.type
  flags : (KndRecord.read (pointer bs)).flags = a.call.flags
  sequence : (KndRecord.read (pointer bs)).sequence = a.sequence
  timestamp : (KndRecord.read (pointer bs)).timestamp = a.call.timestamp
  payload : readBytes (pointer bs) sizeofKndRecord a.call.payload.len = a.call.payload.copied
  data : readBytes (pointer bs) (sizeofKndRecord + a.call.payload.len) a.call.data.len =
    a.call.data.copied

theorem Accepted.carries {a : Accepted} (hc : a.call.Legal) (hle : a.call.recLen ≤ a.place.recLen)
    (hlen : a.place.recLen < 2 ^ 32) (hseq : a.sequence < 2 ^ 64) : Carries a a.bytes := by
  have hlies : Lies (pointer a.bytes) 0 a.bytes := by
    have := lies_pointer a.bytes []
    rwa [List.append_nil] at this
  rw [Accepted.bytes, recordBytes, lies_append, lies_append, lies_append] at hlies
  obtain ⟨⟨⟨hheader, hpayload⟩, hdata⟩, -⟩ := hlies
  have hread := KndRecord.read_of_lies hlen hseq hheader
  have hplen := hc.payload.copied_length
  have hdlen := hc.data.copied_length
  simp only [List.length_append, KndRecord.bytes_length, hplen, Nat.zero_add] at hpayload hdata
  have hpayload' := hpayload.readBytes_eq (Nat.le_of_eq hplen.symm)
  have hdata' := hdata.readBytes_eq (Nat.le_of_eq hdlen.symm)
  rw [List.take_of_length_le (Nat.le_of_eq hplen)] at hpayload'
  rw [List.take_of_length_le (Nat.le_of_eq hdlen)] at hdata'
  exact ⟨recordBytes_length hc.toAdmissible _ hle hlen, congrArg KndRecord.type hread,
    congrArg KndRecord.flags hread, congrArg KndRecord.sequence hread,
    congrArg KndRecord.timestamp hread, hpayload', hdata'⟩

/-- The bytes that accepted calls took, pads included. -/
def produced (as : List Accepted) : Nat := (as.map fun a => a.place.needPad + a.place.recLen).sum

theorem produced_snoc (as : List Accepted) (a : Accepted) :
    produced (as ++ [a]) = produced as + (a.place.needPad + a.place.recLen) := by
  simp [produced]

/-- The system seen as a channel. -/
def System.channel (y : System) : Fifo (List UInt8) := ⟨y.accepted.map Accepted.bytes, y.delivered⟩

/-- The consumer's own position. -/
def Poll.cursor (readPos : Nat) : Poll → Nat
  | .idle => readPos
  | .walking _ rp => rp
  | .reading _ rp _ _ => rp

/-- The sampled `writePos` is passed already, or is the end of one of the next pieces. -/
def Boundary (cur : List Piece) (rp wp : Nat) : Prop :=
  wp < 2 ^ 64 ∧ (rp < wp → ∃ ys zs, cur = ys ++ zs ∧ rp + span ys = wp)

def Poll.Ok (cur : List Piece) : Poll → Prop
  | .idle => True
  | .walking wp rp => Boundary cur rp wp
  | .reading wp rp len got => ∃ a rest, cur = .record a :: rest ∧ len = a.place.recLen ∧
      rp < wp ∧ Boundary cur rp wp ∧ got = a.bytes.take got.length ∧ got.length ≤ len

/-- A call between its first store and its publication, at the position `P` in front of a consumer
that has published `R`. -/
structure Writing (D P R : Nat) (m : Memory) (sequence : Nat) (p : Pending) : Prop where
  below : P < 2 ^ 64
  sequence_gt : sequence < p.sequence
  sequence_le : 24 * p.sequence ≤ P + (p.place.needPad + p.place.recLen)
  aligned : Aligned D (P + (p.place.needPad + p.place.recLen))
  room : P + (p.place.needPad + p.place.recLen) ≤ R + D
  stores : ∀ st ∈ p.stores, ∃ x, P ≤ x ∧ x < R + D ∧ st.1 = x % D
  carries : Carries p.accepted p.accepted.bytes
  pieces : ∃ news, OnRing D (m.putAll p.stores) P news ∧
    span news = p.place.needPad + p.place.recLen ∧ records news = [p.accepted.bytes]

/-- The invariant, with the pieces that the consumer has not passed yet. -/
structure InvAt (D : Nat) (y : System) (cur : List Piece) : Prop where
  size : y.ring.dataSize = D
  writePos : y.ring.writePos = produced y.accepted % 2 ^ 64
  published : y.ring.header.writePos = produced y.accepted % 2 ^ 64
  aligned : Aligned D (produced y.accepted)
  cursor_ge : y.ring.header.readPos ≤ y.consumer.cursor y.ring.header.readPos
  cursor_lt : y.consumer.cursor y.ring.header.readPos < 2 ^ 64
  room : produced y.accepted ≤ y.ring.header.readPos + D
  span : y.consumer.cursor y.ring.header.readPos + span cur = produced y.accepted
  onRing : OnRing D y.ring.data (y.consumer.cursor y.ring.header.readPos) cur
  sequence : 24 * y.ring.nextSequence ≤ produced y.accepted
  sequence_le : ∀ a ∈ y.accepted, a.sequence ≤ y.ring.nextSequence
  sequence_lt : y.accepted.Pairwise fun a b => a.sequence < b.sequence
  carries : ∀ a ∈ y.accepted, Carries a a.bytes
  ordered : y.channel.Ordered
  pending : y.channel.pending = records cur
  consumer : y.consumer.Ok cur
  producer : ∀ p, y.producer = some p →
    Writing D (produced y.accepted) y.ring.header.readPos y.ring.data y.ring.nextSequence p

def Inv (D : Nat) (y : System) : Prop := ∃ cur, InvAt D y cur

theorem inv_initial {D : Nat} (hD : RingSize D) : Inv D (System.initial (RingState.fresh D)) := by
  refine ⟨[], ?_⟩
  constructor
  case aligned => exact aligned_zero hD
  case cursor_lt => exact Nat.two_pow_pos 64
  case ordered => exact List.prefix_refl _
  all_goals simp [System.initial, RingState.fresh, produced, Poll.cursor, OnRing, System.channel,
    Fifo.pending, records, Poll.Ok]

/-! ### The producer -/

theorem incr64_of_lt {n : Nat} (h : n + 1 < 2 ^ 64) : incr64 n = n + 1 := Nat.mod_eq_of_lt h

/-- The record piece of a call that was placed. -/
theorem record_fits {D P R : Nat} {pl : Placement} {c : WriteCall} (hD : RingSize D)
    (ha : Aligned D P) (hc : c.Legal) (hp : Placed D P R c.recLen pl) {sequence : Nat}
    (hseq : sequence < 2 ^ 64) :
    (Piece.record ⟨c, pl, sequence⟩).Fits D (P + pl.needPad) := by
  have hspec := hc.recLen_spec
  have hhigh := hD.high
  have hle := hp.recLen_le
  have hroom := hp.room hD ha
  have hlen : (recordBytes c pl.recLen sequence).length = pl.recLen :=
    recordBytes_length hc.toAdmissible sequence hle (by omega)
  constructor
  case low => exact (by omega : 24 ≤ pl.recLen)
  case align => exact (hp.aligned hD ha hspec.2.2).2.2
  case high => exact (by omega : (P + pl.needPad) % D + pl.recLen ≤ D)
  case sequence => exact hseq
  case bytes_le => exact Nat.le_of_eq hlen
  case record =>
    rintro a ⟨⟩
    exact ⟨hlen, hc.not_wrap⟩

/-- A pad reaches to the end of the data. -/
theorem Placed.pad_eq {D P R recLen : Nat} {pl : Placement} (hp : Placed D P R recLen pl)
    (hpad : pl.needPad ≠ 0) : pl.needPad = D - P % D := by
  rcases hp.pad with ⟨hzero, -⟩ | ⟨heq, -⟩
  · exact absurd hzero hpad
  · exact heq

theorem pad_fits {D P R : Nat} {pl : Placement} {c : WriteCall} (hD : RingSize D)
    (ha : Aligned D P) (hc : c.Legal) (hp : Placed D P R c.recLen pl) (hpad : pl.needPad ≠ 0)
    {sequence : Nat} (hseq : sequence < 2 ^ 64) :
    (Piece.pad c pl.needPad sequence).Fits D P := by
  have hspec := hc.recLen_spec
  have hhigh := hD.high
  have hroom := ha.2
  have hpadEq := hp.pad_eq hpad
  have hmod : P % D < D := Nat.mod_lt _ (by omega)
  constructor
  case low => exact (by omega : 24 ≤ pl.needPad)
  case align => exact (hp.aligned hD ha hspec.2.2).2.1
  case high => exact (by omega : P % D + pl.needPad ≤ D)
  case sequence => exact hseq
  case bytes_le =>
    show (wrapBytes c pl.needPad sequence).length ≤ pl.needPad
    rw [wrapBytes_length]
    omega
  case record => rintro a ⟨⟩

/-- A call that passed its checks, before its first store. -/
theorem writing_of {D : Nat} {s : RingState} {c : WriteCall} {pl : Placement} (hD : RingSize D)
    (hsize : s.dataSize = D) (ha : Aligned D s.writePos) (hbelow : s.writePos < 2 ^ 64)
    (hseq : 24 * s.nextSequence ≤ s.writePos) (hc : c.Legal)
    (hp : Placed D s.writePos s.header.readPos c.recLen pl) :
    Writing D s.writePos s.header.readPos s.data s.nextSequence (Pending.of s c pl) := by
  subst hsize
  have hhigh := hD.high
  have hspec := hc.recLen_spec
  have hle := hp.recLen_le
  have htotal := hp.total_eq
  have hfits := hp.fits
  have hrp := hp.rp_le
  have hused := hp.used_le
  have hroom := ha.2
  have hone : incr64 s.nextSequence = s.nextSequence + 1 := incr64_of_lt (by omega)
  have htwo : incr64 (s.nextSequence + 1) = s.nextSequence + 2 := incr64_of_lt (by omega)
  have hsequence : (Pending.of s c pl).sequence =
      if pl.needPad ≠ 0 then s.nextSequence + 2 else s.nextSequence + 1 := by
    rw [Pending.of, hone, htwo]
    split <;> rfl
  have hbounds : s.nextSequence < (Pending.of s c pl).sequence ∧
      24 * (Pending.of s c pl).sequence ≤ s.writePos + (pl.needPad + pl.recLen) := by
    rw [hsequence]
    rcases hp.pad with ⟨hpad, -⟩ | ⟨hpad, -⟩
    · rw [if_neg (by omega)]
      omega
    · rw [if_pos (by omega)]
      omega
  have hlt : (Pending.of s c pl).sequence < 2 ^ 64 := by omega
  have hrecord := record_fits hD ha hc hp hlt
  have hcell := hp.recordCell hD
  constructor
  case below => exact hbelow
  case sequence_gt => exact hbounds.1
  case sequence_le =>
    rw [Pending.of_place]
    exact hbounds.2
  case aligned =>
    rw [Pending.of_place, ← Nat.add_assoc]
    exact (hp.aligned hD ha hspec.2.2).1
  case room =>
    rw [Pending.of_place]
    omega
  case stores =>
    intro st hst
    obtain ⟨x, hge, hx, heq⟩ := Pending.of_store_cell hD ha hc.toAdmissible hp hst
    exact ⟨x, hge, by omega, heq⟩
  case carries =>
    have hlen : pl.recLen < 2 ^ 32 := by omega
    simp only [Pending.accepted, Pending.of_call, Pending.of_place]
    exact Accepted.carries hc hle hlen hlt
  case pieces =>
    simp only [Pending.accepted, Pending.of_call, Pending.of_place]
    by_cases hpad : pl.needPad = 0
    · refine ⟨[.record ⟨c, pl, (Pending.of s c pl).sequence⟩], ?_, ?_, rfl⟩
      · rw [hpad] at hrecord
        refine ⟨hrecord, ?_, trivial⟩
        rw [Pending.of, if_neg (not_not.mpr hpad), hp.offset_eq]
        exact lies_putAll_blockStores ..
      · simp [Piece.len, hpad]
    · have hpadFits := pad_fits hD ha hc hp hpad (show s.nextSequence + 1 < 2 ^ 64 by omega)
      have hpadEq := hp.pad_eq hpad
      have hmod : s.writePos % s.dataSize < s.dataSize := Nat.mod_lt _ (by omega)
      rw [if_neg hpad] at hcell
      refine ⟨[.pad c pl.needPad (s.nextSequence + 1),
        .record ⟨c, pl, (Pending.of s c pl).sequence⟩], ?_, ?_, rfl⟩
      · refine ⟨hpadFits, ?_, hrecord, ?_, trivial⟩
        · -- the record starts over at offset 0 and ends before the pad
          rw [Pending.of, if_pos hpad, hp.offset_eq, hone, Memory.putAll_append]
          refine (lies_putAll_blockStores ..).putAll fun st hst i hi => ?_
          have hmem := mem_blockStores hst
          rw [recordBytes_length hc.toAdmissible _ hle (by omega)] at hmem
          omega
        · show Lies _ ((s.writePos + pl.needPad) % s.dataSize) _
          rw [hcell, Pending.of, if_pos hpad, Memory.putAll_append]
          exact lies_putAll_blockStores ..
      · simp [Piece.len]

/-- More pieces behind the last one do not move a boundary. -/
theorem Boundary.append {cur : List Piece} {rp wp : Nat} (h : Boundary cur rp wp)
    (news : List Piece) : Boundary (cur ++ news) rp wp := by
  refine ⟨h.1, fun hlt => ?_⟩
  obtain ⟨ys, zs, rfl, hspan⟩ := h.2 hlt
  exact ⟨ys, zs ++ news, List.append_assoc .., hspan⟩

theorem Poll.Ok.append {cur : List Piece} {c : Poll} (h : c.Ok cur) (news : List Piece) :
    c.Ok (cur ++ news) := by
  cases c with
  | idle => trivial
  | walking wp rp => exact Boundary.append h news
  | reading wp rp len got =>
    obtain ⟨a, rest, rfl, hlen, hlt, hwp, hgot⟩ := h
    exact ⟨a, rest ++ news, rfl, hlen, hlt, hwp.append news, hgot⟩

theorem begin_inv {D : Nat} {y : System} {cur : List Piece} {c : WriteCall} (hD : RingSize D)
    (h : InvAt D y cur) (hidle : y.producer = none) (hc : c.Legal) : InvAt D (y.begin c) cur := by
  rw [System.begin]
  split
  · rename_i t hbegin
    obtain ⟨bytes, rfl⟩ := beginWrite_error hbegin
    exact { h with producer := fun p hp => absurd hp (by simp [hidle]) }
  · rename_i p hbegin
    have hDs : RingSize y.ring.dataSize := h.size.symm ▸ hD
    obtain ⟨pl, hp, rfl⟩ := beginWrite_ok hDs hbegin
    have hhigh := hD.high
    have hroom := h.room
    have hrp := hp.rp_le
    have hcursor := h.cursor_lt
    have hge := h.cursor_ge
    have hwp := h.writePos
    -- a wrapped position is behind the consumer's, so nothing is accepted any more
    have hbelow : produced y.accepted < 2 ^ 64 := by omega
    have hpos : y.ring.writePos = produced y.accepted := by omega
    rw [h.size] at hp
    have hwriting := writing_of hD h.size (by rw [hpos]; exact h.aligned) (by omega)
      (by rw [hpos]; exact h.sequence) hc hp
    rw [hpos] at hwriting
    refine { h with producer := fun q hq => ?_ }
    obtain rfl := Option.some.inj hq
    exact hwriting

theorem store_inv {D : Nat} {y : System} {cur : List Piece} {p : Pending} {st : Store}
    {rest : List Store} (h : InvAt D y cur) (hp : y.producer = some p)
    (hst : p.stores = st :: rest) : InvAt D (y.store p st rest) cur := by
  have hw := h.producer p hp
  have hmem : st ∈ p.stores := hst ▸ List.mem_cons_self ..
  obtain ⟨x, hge, hlt, hcell⟩ := hw.stores st hmem
  have hspan := h.span
  have hcursor := h.cursor_ge
  refine { h with
    onRing := h.onRing.put (by omega) (by omega) hcell
    producer := fun q hq => ?_ }
  obtain rfl := Option.some.inj hq
  have hpieces := hw.pieces
  rw [hst] at hpieces
  exact { hw with
    stores := fun t ht => hw.stores t (hst ▸ List.mem_cons_of_mem _ ht)
    pieces := hpieces }

theorem publish_inv {D : Nat} {y : System} {cur : List Piece} {p : Pending} (h : InvAt D y cur)
    (hp : y.producer = some p) (hst : p.stores = []) :
    ∃ news, InvAt D (y.publish p) (cur ++ news) := by
  have hw := h.producer p hp
  obtain ⟨news, hring, hspan, hrecords⟩ := hw.pieces
  have hproduced : produced (y.accepted ++ [p.accepted]) =
      produced y.accepted + (p.place.needPad + p.place.recLen) := produced_snoc ..
  have hbelow := hw.below
  have hpos : (y.ring.writePos + p.place.needPad + p.place.recLen) % 2 ^ 64 =
      produced (y.accepted ++ [p.accepted]) % 2 ^ 64 := by
    have := h.writePos
    rw [hproduced]
    omega
  have hspan' := h.span
  refine ⟨news, ?_⟩
  constructor
  case size => exact h.size
  case writePos => exact hpos
  case published => exact hpos
  case aligned =>
    show Aligned D (produced (y.accepted ++ [p.accepted]))
    rw [hproduced]
    exact hw.aligned
  case cursor_ge => exact h.cursor_ge
  case cursor_lt => exact h.cursor_lt
  case room =>
    show produced (y.accepted ++ [p.accepted]) ≤ y.ring.header.readPos + D
    rw [hproduced]
    exact hw.room
  case span =>
    show y.consumer.cursor y.ring.header.readPos + NetDebugger.Ring.span (cur ++ news) =
      produced (y.accepted ++ [p.accepted])
    rw [hproduced, span_append, hspan]
    omega
  case onRing =>
    rw [hst] at hring
    refine onRing_append.mpr ⟨h.onRing, ?_⟩
    show OnRing D y.ring.data (y.consumer.cursor y.ring.header.readPos + NetDebugger.Ring.span cur) news
    rw [hspan']
    exact hring
  case sequence =>
    show 24 * p.sequence ≤ produced (y.accepted ++ [p.accepted])
    rw [hproduced]
    exact hw.sequence_le
  case sequence_le =>
    intro a ha
    have hgt := hw.sequence_gt
    rcases List.mem_append.mp ha with hold | hnew
    · have hle := h.sequence_le a hold
      exact (by omega : a.sequence ≤ p.sequence)
    · rw [List.mem_singleton.mp hnew]
      exact Nat.le_refl _
  case sequence_lt =>
    refine List.pairwise_append.mpr ⟨h.sequence_lt, List.pairwise_singleton _ _, ?_⟩
    intro a ha b hb
    rw [List.mem_singleton.mp hb]
    exact Nat.lt_of_le_of_lt (h.sequence_le a ha) hw.sequence_gt
  case carries =>
    intro a ha
    rcases List.mem_append.mp ha with hold | hnew
    · exact h.carries a hold
    · rw [List.mem_singleton.mp hnew]
      exact hw.carries
  case ordered =>
    have hsent : y.channel.step (.send p.accepted.bytes) = some (y.publish p).channel := by
      simp [Fifo.step, System.channel, System.publish]
    exact Fifo.step_ordered h.ordered hsent
  case pending =>
    have hsent := Fifo.pending_send h.ordered p.accepted.bytes
    rw [h.pending] at hsent
    rw [records_append, hrecords, ← hsent]
    simp [System.channel, System.publish]
  case consumer => exact h.consumer.append news
  case producer =>
    intro q hq
    cases hq

/-! ### The consumer -/

/-- Behind a boundary ahead there is a first piece, and the boundary is not inside it. -/
theorem Boundary.cons {D : Nat} {m : Memory} {cur : List Piece} {rp wp : Nat}
    (h : Boundary cur rp wp) (hlt : rp < wp) (hring : OnRing D m rp cur) :
    ∃ x rest, cur = x :: rest ∧ x.Fits D rp ∧ Lies m (rp % D) x.bytes ∧
      OnRing D m (rp + x.len) rest ∧ rp + x.len ≤ wp ∧ Boundary rest (rp + x.len) wp := by
  obtain ⟨ys, zs, rfl, hspan⟩ := h.2 hlt
  cases ys with
  | nil =>
    rw [span_nil] at hspan
    omega
  | cons x ys =>
    rw [span_cons] at hspan
    exact ⟨x, ys ++ zs, rfl, hring.1, hring.2.1, hring.2.2, by omega,
      h.1, fun _ => ⟨ys, zs, rfl, by omega⟩⟩

theorem sample_inv {D : Nat} {y : System} {cur : List Piece} (hD : RingSize D) (h : InvAt D y cur)
    (hc : y.consumer = .idle) : InvAt D
      { y with consumer := .walking y.ring.header.writePos y.ring.header.readPos } cur := by
  have hcursor := h.cursor_lt
  have hspan := h.span
  have honRing := h.onRing
  rw [hc] at hcursor hspan honRing
  refine { h with
    cursor_ge := Nat.le_refl _, cursor_lt := hcursor, span := hspan, onRing := honRing
    consumer := ⟨?_, fun hlt => ?_⟩ }
  · have := h.published
    omega
  · have hpublished := h.published
    have hroom := h.room
    have hhigh := hD.high
    simp only [Poll.cursor] at hspan hcursor
    exact ⟨cur, [], (List.append_nil _).symm, by omega⟩

theorem release_inv {D : Nat} {y : System} {cur : List Piece} {wp rp : Nat} (h : InvAt D y cur)
    (hc : y.consumer = .walking wp rp) : InvAt D (y.release rp) cur := by
  have hge := h.cursor_ge
  have hlt := h.cursor_lt
  have hspan := h.span
  have honRing := h.onRing
  have hroom := h.room
  rw [hc] at hge hlt hspan honRing
  simp only [Poll.cursor] at hge hlt hspan honRing
  refine { h with
    cursor_ge := Nat.le_refl _, cursor_lt := hlt, span := hspan, onRing := honRing
    room := by show produced y.accepted ≤ rp + D; omega
    consumer := trivial
    producer := fun p hp => ?_ }
  have hw := h.producer p hp
  have hwroom := hw.room
  exact { hw with
    room := by show produced y.accepted + (p.place.needPad + p.place.recLen) ≤ rp + D; omega
    stores := fun st hst => by
      obtain ⟨x, hx, hxlt, hcell⟩ := hw.stores st hst
      exact ⟨x, hx, by show x < rp + D; omega, hcell⟩ }

theorem walk_inv {D : Nat} {y : System} {cur : List Piece} {wp rp : Nat} (hD : RingSize D)
    (h : InvAt D y cur) (hc : y.consumer = .walking wp rp) (hlt : rp < wp) :
    Inv D (y.walk wp rp) := by
  have hge := h.cursor_ge
  have hspan := h.span
  have honRing := h.onRing
  have hok := h.consumer
  rw [hc] at hge hspan honRing hok
  simp only [Poll.cursor] at hge hspan honRing
  obtain ⟨x, rest, rfl, hfits, hlies, hrest, hle, hnext⟩ := Boundary.cons hok hlt honRing
  have hturn := pollTurn_piece hD hfits hlies
  have hwp := hok.1
  rw [System.walk, h.size, hturn]
  cases x with
  | pad c len sequence =>
    simp only [Piece.len] at hle hnext hrest
    simp only [Piece.turn, span_cons, Piece.len] at hspan ⊢
    rw [Nat.mod_eq_of_lt (show rp + len < 2 ^ 64 by omega)]
    exact ⟨rest, { h with
      cursor_ge := by show y.ring.header.readPos ≤ rp + len; omega
      cursor_lt := by show rp + len < 2 ^ 64; omega
      span := by show rp + len + span rest = produced y.accepted; omega
      onRing := hrest
      pending := h.pending
      consumer := hnext }⟩
  | record a =>
    exact ⟨.record a :: rest, { h with
      cursor_ge := hge
      cursor_lt := by show rp < 2 ^ 64; omega
      span := hspan
      onRing := honRing
      consumer := ⟨a, rest, rfl, rfl, hlt, hok, rfl, Nat.zero_le _⟩ }⟩

theorem copy_inv {D : Nat} {y : System} {cur : List Piece} {wp rp len : Nat} {got : List UInt8}
    (hD : RingSize D) (h : InvAt D y cur) (hc : y.consumer = .reading wp rp len got)
    (hlt : got.length < len) : InvAt D (y.copy wp rp len got) cur := by
  have hge := h.cursor_ge
  have hcursor := h.cursor_lt
  have hspan := h.span
  have honRing := h.onRing
  have hok := h.consumer
  rw [hc] at hge hcursor hspan honRing hok
  simp only [Poll.cursor] at hge hcursor hspan honRing
  obtain ⟨a, rest, rfl, rfl, hrp, hwp, hgot, hle⟩ := hok
  have hmod : rp % D < D := Nat.mod_lt _ (by have := hD.low; omega)
  have hoff : (rp &&& (y.ring.dataSize - 1)) % 2 ^ 32 = rp % D := by
    rw [h.size, and_mask_eq_mod hD.power]
    have := hD.high
    exact Nat.mod_eq_of_lt (by omega)
  have hlen := (honRing.1.record a rfl).1
  have hbyte := lies_iff.mp honRing.2.1 got.length (by rw [Piece.bytes, hlen]; exact hlt)
  rw [System.copy, hoff]
  refine { h with
    cursor_ge := hge, cursor_lt := hcursor, span := hspan, onRing := honRing
    consumer := ⟨a, rest, rfl, rfl, hrp, hwp, ?_, ?_⟩ }
  · rw [hbyte, List.length_append, List.length_singleton, List.take_add_one,
      List.getElem?_eq_getElem (by rw [hlen]; exact hlt)]
    exact congrArg (· ++ _) hgot
  · rw [List.length_append, List.length_singleton]
    omega

theorem deliver_inv {D : Nat} {y : System} {cur : List Piece} {wp rp len : Nat} {got : List UInt8}
    (h : InvAt D y cur) (hc : y.consumer = .reading wp rp len got) (hle : len ≤ got.length) :
    Inv D (y.deliver wp rp len got) ∧
      y.channel.step .receive = some (y.deliver wp rp len got).channel := by
  have hge := h.cursor_ge
  have hspan := h.span
  have honRing := h.onRing
  have hok := h.consumer
  rw [hc] at hge hspan honRing hok
  simp only [Poll.cursor] at hge hspan honRing
  obtain ⟨a, rest, rfl, rfl, hrp, hwp, hgot, hgotLe⟩ := hok
  have hlen := (honRing.1.record a rfl).1
  obtain ⟨x, rest', heq, -, -, hrest, hxle, hnext⟩ := hwp.cons hrp honRing
  obtain ⟨rfl, rfl⟩ := List.cons.inj heq
  have hbytes : got = a.bytes := by
    rw [hgot, List.take_of_length_le (by omega)]
  obtain ⟨hreceive, hpending⟩ := Fifo.receive_pending h.pending
  have hstep : y.channel.step .receive = some (y.deliver wp rp a.place.recLen got).channel := by
    rw [hreceive, hbytes]
    rfl
  refine ⟨⟨rest, ?_⟩, hstep⟩
  simp only [Piece.len] at hxle hnext hrest
  simp only [span_cons, Piece.len] at hspan
  have hwp64 := hwp.1
  have hnowrap : (rp + a.place.recLen) % 2 ^ 64 = rp + a.place.recLen := Nat.mod_eq_of_lt (by omega)
  have hordered := Fifo.step_ordered h.ordered hstep
  rw [System.deliver, hnowrap] at hordered ⊢
  exact { h with
    cursor_ge := by show y.ring.header.readPos ≤ rp + a.place.recLen; omega
    cursor_lt := by show rp + a.place.recLen < 2 ^ 64; omega
    span := by show rp + a.place.recLen + span rest = produced y.accepted; omega
    onRing := hrest
    ordered := hordered
    pending := by rw [hbytes]; exact hpending
    consumer := hnext }

end NetDebugger.Ring
