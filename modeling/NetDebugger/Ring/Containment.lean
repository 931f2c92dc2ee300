import NetDebugger.Model
import NetDebugger.Ring.Resync

/-! What `KndClient::poll` and `KndModel::ingest` read of a ring with arbitrary contents.  A read is
an extent, of the data area for the header fields, of the record for the fields behind it. -/

namespace NetDebugger.Ring

open Lib

/-- A stretch of bytes that is read behind a pointer. -/
structure Extent where
  start : Nat
  len : Nat
deriving DecidableEq

def Extent.Within (e : Extent) (size : Nat) : Prop := e.start + e.len ≤ size

/-- Fields of the payload, behind the record header. -/
def Extent.inPayload (e : Extent) : Extent := { e with start := sizeofKndRecord + e.start }

/-! ### What `ingest` reads -/

/-- `KND_REC_CONN_OPEN`: every field but the counters, and the path as far as it is used. -/
def openReads (cp : KndConnPayload) : List Extent :=
  [⟨0, 8⟩, ⟨8, 8⟩, ⟨16, 1⟩, ⟨17, 1⟩, ⟨18, 1⟩, ⟨20, 2⟩, ⟨22, 2⟩, ⟨24, 16⟩, ⟨40, 16⟩, ⟨72, 2⟩] ++
    if cp.processPathChars > 0 then [⟨80, 2 * cp.processPathChars.toNat⟩] else []

/-- `KND_REC_CONN_CLOSE`: the flow and its counters. -/
def closeReads : List Extent := [⟨0, 8⟩, ⟨56, 8⟩, ⟨64, 8⟩]

/-- The flow that `getOrCreate` returns. -/
def touched (m : KndModel) (flowId : UInt64) (now : Nat) : KndFlow :=
  let (m, i) := m.getOrCreate flowId now
  (m.table.items[i]?).getD (KndFlow.new flowId now)

/-- `KND_REC_DATA`: the bytes that the flow has room for, and those that `pushPacket` shows. -/
def dataReads (m : KndModel) (now : Nat) (dp : KndDataPayload) : List Extent :=
  let buf := (touched m dp.flowId now).payload (Dir.of dp.direction)
  let room := m.payloadCap - buf.length
  [⟨0, 8⟩, ⟨8, 1⟩, ⟨12, 4⟩, ⟨sizeofKndDataPayload, min dp.dataLength.toNat room⟩,
    ⟨sizeofKndDataPayload, min dp.dataLength.toNat 64⟩]

/-- What `KndModel::ingest` reads of the record behind `p`: its type, and for a known type its time
and its payload. -/
def ingestReads (m : KndModel) (now : Nat) (p : Nat → UInt8) : List Extent :=
  let type := (KndRecord.read p).type
  let body := fun i => p (sizeofKndRecord + i)
  let payload :=
    if type = kndRecConnOpen then some (openReads (KndConnPayload.read body))
    else if type = kndRecConnClose then some closeReads
    else if type = kndRecData then some (dataReads m now (KndDataPayload.read body))
    else none
  match payload with
  | none => [⟨4, 2⟩]
  | some es => ⟨4, 2⟩ :: ⟨16, 8⟩ :: es.map Extent.inPayload

theorem ingestReads_open {m : KndModel} {now : Nat} {p : Nat → UInt8}
    (h : (KndRecord.read p).type = kndRecConnOpen) :
    ingestReads m now p = ⟨4, 2⟩ :: ⟨16, 8⟩ ::
      (openReads (KndConnPayload.read fun i => p (sizeofKndRecord + i))).map Extent.inPayload := by
  simp only [ingestReads, if_pos h]

theorem ingestReads_close {m : KndModel} {now : Nat} {p : Nat → UInt8}
    (h : (KndRecord.read p).type = kndRecConnClose) :
    ingestReads m now p = ⟨4, 2⟩ :: ⟨16, 8⟩ :: closeReads.map Extent.inPayload := by
  have hopen : ¬(KndRecord.read p).type = kndRecConnOpen := by rw [h]; decide
  simp only [ingestReads, if_neg hopen, if_pos h]

theorem ingestReads_data {m : KndModel} {now : Nat} {p : Nat → UInt8}
    (h : (KndRecord.read p).type = kndRecData) :
    ingestReads m now p = ⟨4, 2⟩ :: ⟨16, 8⟩ ::
      (dataReads m now (KndDataPayload.read fun i => p (sizeofKndRecord + i))).map
        Extent.inPayload := by
  have hopen : ¬(KndRecord.read p).type = kndRecConnOpen := by rw [h]; decide
  have hclose : ¬(KndRecord.read p).type = kndRecConnClose := by rw [h]; decide
  simp only [ingestReads, if_neg hopen, if_neg hclose, if_pos h]

/-- Two pointers see the same bytes there. -/
def Extent.Agree (e : Extent) (p q : Nat → UInt8) : Prop :=
  ∀ i < e.len, p (e.start + i) = q (e.start + i)

theorem Extent.Agree.readBytes {p q : Nat → UInt8} {start len : Nat}
    (h : (Extent.mk start len).Agree p q) : readBytes p start len = readBytes q start len :=
  readBytes_congr h

theorem Extent.Agree.readNat {p q : Nat → UInt8} {start len : Nat}
    (h : (Extent.mk start len).Agree p q) : readNat p start len = readNat q start len := by
  rw [Lib.readNat, h.readBytes, Lib.readNat]

theorem Extent.Agree.byte {p q : Nat → UInt8} {start : Nat}
    (h : (Extent.mk start 1).Agree p q) : p start = q start := h 0 Nat.one_pos

theorem Extent.Agree.inPayload {p q : Nat → UInt8} {e : Extent} (h : e.inPayload.Agree p q) :
    e.Agree (fun i => p (sizeofKndRecord + i)) fun i => q (sizeofKndRecord + i) := by
  intro i hi
  have := h i hi
  simpa only [Extent.inPayload, Nat.add_assoc] using this

theorem Extent.Agree.behind {p q : Nat → UInt8} {start len : Nat}
    (h : (Extent.mk start len).Agree p q) :
    (Extent.mk 0 len).Agree (fun i => p (start + i)) fun i => q (start + i) := by
  intro i hi
  simpa only [Nat.zero_add] using h i hi

/-! `ingest` split into the statistics, the flow and the packet. -/

/-- Every record counts. -/
def counted (m : KndModel) : KndModel :=
  { m with stats := { m.stats with totalRecords := m.stats.totalRecords + 1 } }

theorem ingest_open (utf16ToUtf8 : List UInt16 → List UInt8) (m : KndModel) (now : Nat)
    {p : Nat → UInt8} (h : (KndRecord.read p).type = kndRecConnOpen) :
    m.ingest utf16ToUtf8 p now =
      let cp := KndConnPayload.read fun i => p (sizeofKndRecord + i)
      let m := (counted m).touch cp.flowId now (fun f => f.onOpen utf16ToUtf8 (KndRecord.read p) cp)
        (KndRecord.read p) KndFlow.direction 0 fun i => p (sizeofKndRecord + i)
      { m with stats := { m.stats with connOpens := m.stats.connOpens + 1 } } := by
  rw [KndModel.ingest, if_pos h]
  rfl

theorem ingest_close (utf16ToUtf8 : List UInt16 → List UInt8) (m : KndModel) (now : Nat)
    {p : Nat → UInt8} (h : (KndRecord.read p).type = kndRecConnClose) :
    m.ingest utf16ToUtf8 p now =
      let cp := KndConnPayload.read fun i => p (sizeofKndRecord + i)
      let m := (counted m).touch cp.flowId now (fun f => f.onClose (KndRecord.read p) cp)
        (KndRecord.read p) (fun _ => 0) 0 fun i => p (sizeofKndRecord + i)
      { m with stats := { m.stats with connCloses := m.stats.connCloses + 1 } } := by
  rw [KndModel.ingest, if_neg (by rw [h]; decide), if_pos h]
  rfl

/-- The statistics of a data record. -/
def dataCounted (m : KndModel) (dp : KndDataPayload) : KndModel :=
  let len := dp.dataLength.toUInt64
  let inbound := Dir.of dp.direction = .inbound
  { m with stats := { m.stats with
      inBytes := if inbound then m.stats.inBytes + len else m.stats.inBytes
      outBytes := if inbound then m.stats.outBytes else m.stats.outBytes + len
      sizeHist := m.stats.sizeHist.modify (sizeClass dp.dataLength.toNat) (· + 1)
      dataRecords := m.stats.dataRecords + 1
      payloadBytes := m.stats.payloadBytes + len } }

theorem ingest_data (utf16ToUtf8 : List UInt16 → List UInt8) (m : KndModel) (now : Nat)
    {p : Nat → UInt8} (h : (KndRecord.read p).type = kndRecData) :
    m.ingest utf16ToUtf8 p now =
      let body := fun i => p (sizeofKndRecord + i)
      let dp := KndDataPayload.read body
      let data := fun i => body (sizeofKndDataPayload + i)
      dataCounted ((counted m).touch dp.flowId now
        (fun f => f.onData m.payloadCap (KndRecord.read p) dp data now)
        (KndRecord.read p) (fun _ => dp.direction) dp.dataLength data) dp := by
  rw [KndModel.ingest, if_neg (by rw [h]; decide), if_neg (by rw [h]; decide), if_pos h]
  rfl

theorem pushPacket_congr (m : KndModel) {r r' : KndRecord} (htype : r.type = r'.type)
    (htime : r.timestamp = r'.timestamp) (f : KndFlow) (dir : UInt8) (len : UInt32)
    {d d' : Nat → UInt8} (hdata : ¬(r'.type = kndRecConnOpen ∨ r'.type = kndRecConnClose) →
      (Extent.mk 0 (min len.toNat 64)).Agree d d') :
    m.pushPacket r f dir len d = m.pushPacket r' f dir len d' := by
  by_cases hconn : r'.type = kndRecConnOpen ∨ r'.type = kndRecConnClose
  · have hinfo : packetInfo r f dir len d = packetInfo r' f dir len d' := by
      rcases hconn with h | h <;> simp only [packetInfo, htype, h, if_true]
    simp only [KndModel.pushPacket, hinfo, htype, htime, if_pos hconn]
  · have hagree := hdata hconn
    have hshown : readBytes d 0 (min (min len.toNat 64) 48) =
        readBytes d' 0 (min (min len.toNat 64) 48) :=
      readBytes_congr fun i hi => hagree i (show i < min len.toNat 64 by omega)
    simp only [KndModel.pushPacket, packetInfo, htype, htime, hagree.readBytes, hshown]

theorem touch_record_congr (m : KndModel) (flowId : UInt64) (now : Nat) (g : KndFlow → KndFlow)
    {r r' : KndRecord} (htype : r.type = r'.type) (htime : r.timestamp = r'.timestamp)
    (dir : KndFlow → UInt8) (len : UInt32) {d d' : Nat → UInt8}
    (hdata : ¬(r'.type = kndRecConnOpen ∨ r'.type = kndRecConnClose) →
      (Extent.mk 0 (min len.toNat 64)).Agree d d') :
    m.touch flowId now g r dir len d = m.touch flowId now g r' dir len d' :=
  pushPacket_congr _ htype htime _ _ _ hdata

/-- Only the flow that the record comes to matters to the change. -/
theorem touch_flow_congr (m : KndModel) (flowId : UInt64) (now : Nat) {g g' : KndFlow → KndFlow}
    (hg : g (touched m flowId now) = g' (touched m flowId now)) (r : KndRecord)
    (dir : KndFlow → UInt8) (len : UInt32) (d : Nat → UInt8) :
    m.touch flowId now g r dir len d = m.touch flowId now g' r dir len d := by
  have hmodify : (m.getOrCreate flowId now).1.table.modify (m.getOrCreate flowId now).2 g =
      (m.getOrCreate flowId now).1.table.modify (m.getOrCreate flowId now).2 g' := by
    refine Indexed.modify_congr fun a ha => ?_
    simpa only [touched, ha, Option.getD_some] using hg
  simp only [touched] at hg
  simp only [KndModel.touch, hmodify, hg]

/-- The path is used as far as its count says. -/
theorem processPath_congr {p q : Nat → UInt8}
    (h : ∀ e ∈ openReads (KndConnPayload.read p), e.Agree p q) :
    (KndConnPayload.read p).processPath = (KndConnPayload.read q).processPath := by
  have hchars : (Extent.mk 72 2).Agree p q := h _ (by simp [openReads])
  simp only [KndConnPayload.read, ← hchars.readNat]
  refine List.map_congr_left fun i hi => ?_
  have hi : i < readNat p 72 2 := List.mem_range.mp hi
  have hcount : (KndConnPayload.read p).processPathChars.toNat = readNat p 72 2 := by
    have := readNat_lt p 72 2
    simp only [KndConnPayload.read, UInt16.toNat_ofNat']
    omega
  have hpath : (Extent.mk 80 (2 * (KndConnPayload.read p).processPathChars.toNat)).Agree p q := by
    apply h
    rw [openReads, if_pos (UInt16.lt_iff_toNat_lt.mpr (by rw [hcount]; exact Nat.zero_lt_of_lt hi))]
    simp
  have hunit : (Extent.mk (80 + 2 * i) 2).Agree p q := by
    intro j hj
    have := hpath (2 * i + j) (show _ < 2 * _ by rw [hcount]; simp only at hj; omega)
    simpa only [Nat.add_assoc] using this
  rw [hunit.readNat]

theorem onOpen_congr (utf16ToUtf8 : List UInt16 → List UInt8) {r r' : KndRecord}
    (htime : r.timestamp = r'.timestamp) {p q : Nat → UInt8}
    (h : ∀ e ∈ openReads (KndConnPayload.read p), e.Agree p q) :
    (fun f : KndFlow => f.onOpen utf16ToUtf8 r (KndConnPayload.read p)) =
      fun f => f.onOpen utf16ToUtf8 r' (KndConnPayload.read q) := by
  funext f
  have hpath := processPath_congr h
  simp only [openReads, List.forall_mem_append, List.forall_mem_cons] at h
  obtain ⟨⟨-, hpid, hproto, hver, hdir, hlport, hrport, hladdr, hraddr, hchars, -⟩, -⟩ := h
  simp only [KndFlow.onOpen, hpath, htime]
  simp only [KndConnPayload.read, hpid.readNat, hproto.byte, hver.byte, hdir.byte, hlport.readNat,
    hrport.readNat, hladdr.readBytes, hraddr.readBytes, hchars.readNat]
  rfl

theorem onClose_congr {r r' : KndRecord} (htime : r.timestamp = r'.timestamp) {p q : Nat → UInt8}
    (h : ∀ e ∈ closeReads, e.Agree p q) :
    (fun f : KndFlow => f.onClose r (KndConnPayload.read p)) =
      fun f => f.onClose r' (KndConnPayload.read q) := by
  funext f
  simp only [closeReads, List.forall_mem_cons] at h
  obtain ⟨-, hin, hout, -⟩ := h
  simp only [KndFlow.onClose, KndConnPayload.read, htime, hin.readNat, hout.readNat]

theorem recordRead_congr {m : KndModel} {now : Nat} {p q : Nat → UInt8}
    (h : ∀ e ∈ ingestReads m now p, e.Agree p q) :
    (KndRecord.read p).type = (KndRecord.read q).type := by
  have hread : (Extent.mk 4 2).Agree p q := by
    apply h
    rw [ingestReads]
    split <;> exact List.mem_cons_self ..
  simp only [KndRecord.read, hread.readNat]

/-- The fields that a record of a known type is read for. -/
theorem payload_congr {m : KndModel} {now : Nat} {p q : Nat → UInt8} {es : List Extent}
    (hreads : ingestReads m now p = ⟨4, 2⟩ :: ⟨16, 8⟩ :: es.map Extent.inPayload)
    (h : ∀ e ∈ ingestReads m now p, e.Agree p q) :
    (KndRecord.read p).timestamp = (KndRecord.read q).timestamp ∧
      ∀ e ∈ es, e.Agree (fun i => p (sizeofKndRecord + i)) fun i => q (sizeofKndRecord + i) := by
  rw [hreads] at h
  simp only [List.forall_mem_cons, List.forall_mem_map] at h
  obtain ⟨-, htime, h⟩ := h
  exact ⟨by simp only [KndRecord.read, htime.readNat], fun e he => (h e he).inPayload⟩

theorem connFlow_congr {p q : Nat → UInt8} (h : (Extent.mk 0 8).Agree p q) :
    (KndConnPayload.read p).flowId = (KndConnPayload.read q).flowId := by
  simp only [KndConnPayload.read, h.readNat]

/-- The kind of the data is not read. -/
theorem dataRead_congr {m : KndModel} {now : Nat} {p q : Nat → UInt8}
    (h : ∀ e ∈ dataReads m now (KndDataPayload.read p), e.Agree p q) :
    ∃ kind, KndDataPayload.read q = { KndDataPayload.read p with dataKind := kind } := by
  simp only [dataReads, List.forall_mem_cons] at h
  obtain ⟨hflow, hdir, hlen, -⟩ := h
  refine ⟨q 9, ?_⟩
  simp only [KndDataPayload.read, hflow.readNat, hdir.byte, hlen.readNat]

/-- The data is read as far as the flow has room for it. -/
theorem onData_congr {m : KndModel} {now : Nat} {r r' : KndRecord}
    (htime : r.timestamp = r'.timestamp) {dp : KndDataPayload} {d d' : Nat → UInt8} {f : KndFlow}
    (hcopy : (Extent.mk 0 (min dp.dataLength.toNat
      (m.payloadCap - (f.payload (Dir.of dp.direction)).length))).Agree d d') :
    f.onData m.payloadCap r dp d now = f.onData m.payloadCap r' dp d' now := by
  simp only [KndFlow.onData, htime, hcopy.readBytes]

/-- `ingest` depends on no other byte: the reads are all there. -/
theorem ingest_congr (utf16ToUtf8 : List UInt16 → List UInt8) {m : KndModel} {now : Nat}
    {p q : Nat → UInt8} (h : ∀ e ∈ ingestReads m now p, e.Agree p q) :
    m.ingest utf16ToUtf8 p now = m.ingest utf16ToUtf8 q now := by
  have htype := recordRead_congr h
  by_cases hopen : (KndRecord.read p).type = kndRecConnOpen
  · obtain ⟨htime, hbody⟩ := payload_congr (ingestReads_open hopen) h
    rw [ingest_open _ _ _ hopen, ingest_open _ _ _ (htype ▸ hopen)]
    simp only
    rw [onOpen_congr utf16ToUtf8 htime hbody, connFlow_congr (hbody ⟨0, 8⟩ (by simp [openReads])),
      touch_record_congr _ _ now _ htype htime _ 0 fun hconn => absurd (Or.inl (htype ▸ hopen)) hconn]
  by_cases hclose : (KndRecord.read p).type = kndRecConnClose
  · obtain ⟨htime, hbody⟩ := payload_congr (ingestReads_close hclose) h
    rw [ingest_close _ _ _ hclose, ingest_close _ _ _ (htype ▸ hclose)]
    simp only
    rw [onClose_congr htime hbody, connFlow_congr (hbody ⟨0, 8⟩ (by simp [closeReads])),
      touch_record_congr _ _ now _ htype htime _ 0 fun hconn => absurd (Or.inr (htype ▸ hclose)) hconn]
  by_cases hdata : (KndRecord.read p).type = kndRecData
  · obtain ⟨htime, hbody⟩ := payload_congr (ingestReads_data hdata) h
    obtain ⟨kind, hkind⟩ := dataRead_congr hbody
    simp only [dataReads, List.forall_mem_cons] at hbody
    obtain ⟨-, -, -, hcopy, hshow, -⟩ := hbody
    rw [ingest_data _ _ _ hdata, ingest_data _ _ _ (htype ▸ hdata)]
    simp only [hkind]
    refine congrArg (dataCounted · _) ((touch_flow_congr _ _ now ?_ _ _ _ _).trans
      (touch_record_congr _ _ now _ htype htime _ _ fun _ => hshow.behind))
    exact onData_congr htime hcopy.behind
  · simp only [KndModel.ingest, ← htype, if_neg hopen, if_neg hclose, if_neg hdata]

/-! ### What `poll` reads -/

def recordAt (data : Memory) (dataSize x : Nat) : Nat → UInt8 := fun i => data (offsetOf dataSize x + i)

/-- The loop comes to `x` and reads the header there. -/
structure Visits (data : Memory) (dataSize wp rp x : Nat) : Prop where
  mapped : dataSize ≠ 0
  walk : Walk data dataSize wp rp x
  below : x < wp

/-- The length of a record, and its type if the length is plausible. -/
def headerReads (data : Memory) (dataSize x : Nat) : List Extent :=
  match pollTurn data dataSize x with
  | .resync => [⟨offsetOf dataSize x, 4⟩]
  | _ => [⟨offsetOf dataSize x, 4⟩, ⟨offsetOf dataSize x + 4, 2⟩]

/-- Headers are read inside the data area, records are handed over that lie in it and in the window
`[rp, wp)`, and `ingest` stays inside each of them, whatever the model holds. -/
def Tolerated (data : Memory) (dataSize wp rp : Nat) : Prop :=
  ∀ x, Visits data dataSize wp rp x →
    (∀ e ∈ headerReads data dataSize x, e.Within dataSize) ∧
      ∀ len, pollTurn data dataSize x = .record len →
        (Extent.mk (offsetOf dataSize x) len).Within dataSize ∧ rp ≤ x ∧ x + len ≤ wp ∧
          ∀ m now, ∀ e ∈ ingestReads m now (recordAt data dataSize x), e.Within len

/-- The fields that `ingest` needs, the path and the data fit in `len` bytes. -/
def InnerFits (p : Nat → UInt8) (len : Nat) : Prop :=
  let type := (KndRecord.read p).type
  let body := fun i => p (sizeofKndRecord + i)
  if type = kndRecConnOpen then
    let chars := (KndConnPayload.read body).processPathChars
    98 ≤ len ∧ (chars > 0 → 104 + 2 * chars.toNat ≤ len)
  else if type = kndRecConnClose then 96 ≤ len
  else if type = kndRecData then 40 + (KndDataPayload.read body).dataLength.toNat ≤ len
  else True

/-- What the header says at each position that the loop comes to, and the checks that are missing:
the end of the data area, `writePos`, and the lengths inside the record. -/
def Contained (data : Memory) (dataSize wp rp : Nat) : Prop :=
  ∀ x, Visits data dataSize wp rp x →
    match pollTurn data dataSize x with
    | .resync => offsetOf dataSize x + 4 ≤ dataSize
    | .skip _ => offsetOf dataSize x + 6 ≤ dataSize
    | .record len => offsetOf dataSize x + len ≤ dataSize ∧ rp ≤ x ∧ x + len ≤ wp ∧
        InnerFits (recordAt data dataSize x) len

/-- Every record that the callback gets is one that the loop comes to. -/
theorem pollLoop_handed {data : Memory} {dataSize wp fuel rp p : Nat} {handed : List (Nat × Nat)}
    (h : pollLoop data dataSize wp fuel rp = some (handed, p)) :
    ∀ r ∈ handed, ∃ x, Walk data dataSize wp rp x ∧ x < wp ∧
      r.1 = offsetOf dataSize x ∧ pollTurn data dataSize x = .record r.2 := by
  induction fuel generalizing rp handed p with
  | zero => simp [pollLoop] at h
  | succ fuel ih =>
    rw [pollLoop] at h
    split at h
    · next hlt =>
      split at h
      · split at h
        · obtain ⟨rfl, -⟩ := Prod.mk.inj (Option.some.inj h)
          simp
        · next len hturn =>
          intro r hr
          obtain ⟨x, hwalk, hx⟩ := ih h r hr
          exact ⟨x, .next hlt (by rw [hturn]; rfl) hwalk, hx⟩
        · next len hturn =>
          obtain ⟨⟨rest, q⟩, hloop, heq⟩ := Option.map_eq_some_iff.mp h
          obtain ⟨rfl, -⟩ := Prod.mk.inj heq
          intro r hr
          rcases List.mem_cons.mp hr with rfl | hr
          · exact ⟨rp, .here rp, hlt, rfl, hturn⟩
          · obtain ⟨x, hwalk, hx⟩ := ih hloop r hr
            exact ⟨x, .next hlt (by rw [hturn]; rfl) hwalk, hx⟩
      · contradiction
    · obtain ⟨rfl, -⟩ := Prod.mk.inj (Option.some.inj h)
      simp

theorem pollTurn_record_low {data : Memory} {dataSize x len : Nat}
    (h : pollTurn data dataSize x = .record len) : 24 ≤ len := by
  simp only [pollTurn] at h
  split at h
  · contradiction
  · next hplausible =>
    split at h
    · obtain rfl := Turn.record.inj h
      rw [not_or, sizeofKndRecord] at hplausible
      omega
    · contradiction

/-- The header of the record is inside it. -/
theorem payload_within_iff {len : Nat} (hlen : 24 ≤ len) (es : List Extent) :
    (∀ e ∈ (⟨4, 2⟩ : Extent) :: ⟨16, 8⟩ :: es.map Extent.inPayload, e.Within len) ↔
      ∀ e ∈ es, 24 + e.start + e.len ≤ len := by
  simp only [List.forall_mem_cons, List.forall_mem_map]
  refine ⟨fun h => h.2.2, fun h => ⟨?_, ?_, h⟩⟩
  · exact show 4 + 2 ≤ len by omega
  · exact show 16 + 8 ≤ len by omega

theorem openReads_within_iff (cp : KndConnPayload) (len : Nat) :
    (∀ e ∈ openReads cp, 24 + e.start + e.len ≤ len) ↔
      98 ≤ len ∧ (cp.processPathChars > 0 → 104 + 2 * cp.processPathChars.toNat ≤ len) := by
  by_cases hchars : cp.processPathChars > 0
  · simp only [openReads, hchars, if_true, List.cons_append, List.nil_append, List.forall_mem_cons,
      List.not_mem_nil, false_implies, implies_true, and_true, forall_const]
    omega
  · simp only [openReads, hchars, if_false, List.append_nil, List.forall_mem_cons, List.not_mem_nil,
      false_implies, implies_true, and_true]
    omega

theorem closeReads_within_iff (len : Nat) :
    (∀ e ∈ closeReads, 24 + e.start + e.len ≤ len) ↔ 96 ≤ len := by
  simp only [closeReads, List.forall_mem_cons, List.not_mem_nil, false_implies, implies_true, and_true]
  omega

/-- A model with room for it reads all the data. -/
theorem dataReads_within_iff (dp : KndDataPayload) (len : Nat) :
    (∀ m now, ∀ e ∈ dataReads m now dp, 24 + e.start + e.len ≤ len) ↔
      40 + dp.dataLength.toNat ≤ len := by
  constructor
  · intro h
    have hroom := h (KndModel.empty dp.dataLength.toNat 0) 0
      ⟨16, min dp.dataLength.toNat dp.dataLength.toNat⟩ (by
        simp [dataReads, touched, KndModel.getOrCreate, KndModel.empty, Indexed.empty,
          Indexed.ensure, KndFlow.new, sizeofKndDataPayload])
    simp only at hroom
    omega
  · intro h m now e he
    simp only [dataReads, List.mem_cons, List.not_mem_nil, or_false, sizeofKndDataPayload] at he
    rcases he with rfl | rfl | rfl | rfl | rfl <;> simp only <;> omega

theorem ingestReads_within_iff {p : Nat → UInt8} {len : Nat} (hlen : 24 ≤ len) :
    (∀ m now, ∀ e ∈ ingestReads m now p, e.Within len) ↔ InnerFits p len := by
  have m₀ := KndModel.empty 0 0
  simp only [InnerFits]
  split
  · next hopen =>
    simp only [ingestReads_open hopen, payload_within_iff hlen, openReads_within_iff]
    exact ⟨fun h => h m₀ 0, fun h _ _ => h⟩
  split
  · next hclose =>
    simp only [ingestReads_close hclose, payload_within_iff hlen, closeReads_within_iff]
    exact ⟨fun h => h m₀ 0, fun h _ _ => h⟩
  split
  · next hdata =>
    simp only [ingestReads_data hdata, payload_within_iff hlen, dataReads_within_iff]
  · next hopen hclose hdata =>
    refine iff_of_true (fun m now e he => ?_) trivial
    simp only [ingestReads, if_neg hopen, if_neg hclose, if_neg hdata, List.mem_singleton] at he
    subst he
    exact show 4 + 2 ≤ len by omega

/-- The consumer tolerates the contents exactly when the missing checks would find nothing. -/
theorem tolerated_iff (data : Memory) (dataSize wp rp : Nat) :
    Tolerated data dataSize wp rp ↔ Contained data dataSize wp rp := by
  refine forall_congr' fun x => imp_congr_right fun _ => ?_
  rw [headerReads]
  cases hturn : pollTurn data dataSize x with
  | resync => simp [Extent.Within]
  | skip len =>
    simp only [Extent.Within, List.forall_mem_cons, List.not_mem_nil, false_implies, implies_true,
      and_true, reduceCtorEq, and_iff_right_iff_imp]
    omega
  | record len =>
    have hlow := pollTurn_record_low hturn
    simp only [← ingestReads_within_iff hlow, Extent.Within]
    constructor
    · rintro ⟨-, h⟩
      exact h len rfl
    · intro h
      refine ⟨?_, fun n hn => Turn.record.inj hn ▸ h⟩
      simp only [List.forall_mem_cons, List.not_mem_nil, false_implies, implies_true, and_true]
      omega

/-- A close record without its payload passes the checks of `poll`. -/
theorem oneRecord_overread : ¬ ∀ data dataSize wp rp, rp ≤ wp → wp - rp ≤ dataSize →
    Tolerated data dataSize wp rp := by
  intro h
  have hclose := ((h (oneRecord 24).data 0x10000 24 0 (by decide) (by decide)) 0
    ⟨by decide, .here 0, by decide⟩).2 24 (by decide)
  obtain ⟨-, -, -, hreads⟩ := hclose
  have hflow := hreads (KndModel.empty 0 0) 0 ⟨24, 8⟩ (by
    rw [ingestReads_close (by decide)]
    decide)
  exact absurd (show 24 + 8 ≤ 24 from hflow) (by decide)

end NetDebugger.Ring
