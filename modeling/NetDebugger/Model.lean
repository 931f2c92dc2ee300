import NetDebugger.Lib.Indexed
import NetDebugger.Lib.Text
import NetDebugger.Protocol

/-! The application's model, `app_model.cpp`: records become flows with capped payloads, totals,
and a log of packets.  Strings are lists of bytes, and the conversion from UTF-16, which is
Windows', is a parameter. -/

namespace NetDebugger

open Lib

/-- The index of the two payload buffers of a flow. -/
inductive Dir
  | outbound
  | inbound
deriving DecidableEq

/-- `dp->direction == KND_DIR_INBOUND ? 1 : 0`. -/
def Dir.of (direction : UInt8) : Dir := if direction = kndDirInbound then .inbound else .outbound

/-- `KndFlow`. Times of the user interface are only stored. -/
structure KndFlow where
  flowId : UInt64
  processId : UInt64
  protocol : UInt8
  ipVersion : UInt8
  direction : UInt8
  localPort : UInt16
  remotePort : UInt16
  localAddr : List UInt8
  remoteAddr : List UInt8
  processName : List UInt8
  processPath : List UInt8
  firstTs : UInt64
  lastTs : UInt64
  bytesOut : UInt64
  bytesIn : UInt64
  records : UInt64
  closed : Bool
  payload : Dir → List UInt8
  truncated : Dir → Bool
  uiCreated : Nat
  uiActivity : Nat

/-- A flow as `getOrCreate` makes it. -/
def KndFlow.new (flowId : UInt64) (now : Nat) : KndFlow where
  flowId := flowId
  processId := 0
  protocol := 0
  ipVersion := 0
  direction := 0
  localPort := 0
  remotePort := 0
  localAddr := List.replicate 16 0
  remoteAddr := List.replicate 16 0
  processName := []
  processPath := []
  firstTs := 0
  lastTs := 0
  bytesOut := 0
  bytesIn := 0
  records := 0
  closed := false
  payload := fun _ => []
  truncated := fun _ => false
  uiCreated := now
  uiActivity := now

structure KndModelStats where
  totalRecords : UInt64
  connOpens : UInt64
  connCloses : UInt64
  dataRecords : UInt64
  payloadBytes : UInt64
  outBytes : UInt64
  inBytes : UInt64
  sizeHist : List UInt64
deriving DecidableEq

def KndModelStats.zero : KndModelStats := ⟨0, 0, 0, 0, 0, 0, 0, List.replicate 6 0⟩

structure KndPacket where
  no : UInt64
  ts : UInt64
  flowId : UInt64
  type : UInt16
  direction : UInt8
  length : UInt32
  info : List UInt8
  preview : List UInt8
deriving DecidableEq

/-- `KndModel`: `table` is `flows_` with `index_`. -/
structure KndModel where
  table : Indexed UInt64 KndFlow
  stats : KndModelStats
  packets : List KndPacket
  packetNo : UInt64
  payloadCap : Nat
  packetCap : Nat

def KndModel.empty (payloadCap packetCap : Nat) : KndModel :=
  ⟨.empty, .zero, [], 0, payloadCap, packetCap⟩

/-! ### Text -/

def kndFormatAddr (addr : List UInt8) (ipVersion : UInt8) : List UInt8 :=
  let octet := fun i => (addr.getD i 0).toNat
  if ipVersion = kndIPv6 then
    snprintf 64 ((text ":").intercalate
      ((List.range 8).map fun i => hex (octet (2 * i) * 256 + octet (2 * i + 1))))
  else snprintf 64 ((text ".").intercalate ((List.range 4).map fun i => decimal (octet i)))

/-- The part of a path after its last slash or backslash. -/
def baseName (path : List UInt8) : List UInt8 :=
  (path.reverse.takeWhile fun b => b ≠ 0x5C ∧ b ≠ 0x2F).reverse

/-! ### What a record does to its flow -/

section Flow

variable (utf16ToUtf8 : List UInt16 → List UInt8)

def KndFlow.onOpen (f : KndFlow) (rec' : KndRecord) (p : KndConnPayload) : KndFlow :=
  let path := utf16ToUtf8 p.processPath
  { f with
    processId := p.processId
    protocol := p.protocol
    ipVersion := p.ipVersion
    direction := p.direction
    localPort := p.localPort
    remotePort := p.remotePort
    localAddr := p.localAddr
    remoteAddr := p.remoteAddr
    firstTs := if f.firstTs = 0 then rec'.timestamp else f.firstTs
    lastTs := rec'.timestamp
    processPath := if p.processPathChars > 0 then path else f.processPath
    processName := if p.processPathChars > 0 then baseName path else f.processName }

/-- The counters of the close record replace the flow's own. -/
def KndFlow.onClose (f : KndFlow) (rec' : KndRecord) (p : KndConnPayload) : KndFlow :=
  { f with closed := true, bytesIn := p.bytesIn, bytesOut := p.bytesOut, lastTs := rec'.timestamp }

/-- The bytes are read only as far as there is room for them. -/
def KndFlow.onData (f : KndFlow) (payloadCap : Nat) (rec' : KndRecord) (dp : KndDataPayload)
    (data : Nat → UInt8) (now : Nat) : KndFlow :=
  let dir := Dir.of dp.direction
  let len := dp.dataLength.toUInt64
  let buf := f.payload dir
  let take := min dp.dataLength.toNat (payloadCap - buf.length)
  { f with
    bytesIn := if dir = .inbound then f.bytesIn + len else f.bytesIn
    bytesOut := if dir = .inbound then f.bytesOut else f.bytesOut + len
    records := f.records + 1
    lastTs := rec'.timestamp
    uiActivity := now
    payload := Function.update f.payload dir
      (if buf.length < payloadCap then buf ++ readBytes data 0 take else buf)
    truncated := Function.update f.truncated dir
      (if buf.length < payloadCap then f.truncated dir || take < dp.dataLength.toNat else true) }

end Flow

/-! ### The model -/

def KndModel.getOrCreate (m : KndModel) (flowId : UInt64) (now : Nat) : KndModel × Nat :=
  let (table, i) := m.table.ensure flowId (KndFlow.new flowId now)
  ({ m with table }, i)

def KndModel.find (m : KndModel) (flowId : UInt64) : Option KndFlow := m.table.find flowId

def KndModel.clear (m : KndModel) : KndModel :=
  { m with table := .empty, stats := .zero, packets := [], packetNo := 0 }

/-- The line of the packet log. -/
def packetInfo (rec' : KndRecord) (f : KndFlow) (dir : UInt8) (len : UInt32) (data : Nat → UInt8) :
    List UInt8 :=
  let remote := kndFormatAddr f.remoteAddr f.ipVersion
  let port := decimal f.remotePort.toNat
  if rec'.type = kndRecConnOpen then
    snprintf 160 (text "Connect  " ++ remote ++ text ":" ++ port ++ text "  " ++
      cString f.processName)
  else if rec'.type = kndRecConnClose then
    snprintf 160 (text "Close  " ++ remote ++ text ":" ++ port)
  else
    let arrow := if dir = kndDirInbound then text "<-" else text "->"
    snprintf 160 (arrow ++ text "  " ++ decimal len.toNat ++ text " B  ") ++
      (readBytes data 0 (min (min len.toNat 64) 48)).map fun c =>
        if 0x20 ≤ c ∧ c < 0x7F then c else 0x2E

def KndModel.pushPacket (m : KndModel) (rec' : KndRecord) (f : KndFlow) (dir : UInt8)
    (len : UInt32) (data : Nat → UInt8) : KndModel :=
  let p : KndPacket :=
    { no := m.packetNo + 1
      ts := rec'.timestamp
      flowId := f.flowId
      type := rec'.type
      direction := dir
      length := len
      info := packetInfo rec' f dir len data
      preview := if rec'.type = kndRecConnOpen ∨ rec'.type = kndRecConnClose then []
        else readBytes data 0 (min len.toNat 64) }
  let packets := m.packets ++ [p]
  { m with
    packetNo := m.packetNo + 1
    packets := if packets.length > m.packetCap then packets.drop 1 else packets }

/-- The class of the size histogram. -/
def sizeClass (len : Nat) : Nat :=
  if len < 128 then 0 else if len < 512 then 1 else if len < 1500 then 2
  else if len < 4096 then 3 else if len < 16384 then 4 else 5

/-- The flow of the record, created where it is new, is changed by `g`, and the packet is logged. -/
def KndModel.touch (m : KndModel) (flowId : UInt64) (now : Nat) (g : KndFlow → KndFlow)
    (rec' : KndRecord) (dir : KndFlow → UInt8) (len : UInt32) (data : Nat → UInt8) : KndModel :=
  let (m, i) := m.getOrCreate flowId now
  let f := g ((m.table.items[i]?).getD (KndFlow.new flowId now))
  let m := { m with table := m.table.modify i g }
  m.pushPacket rec' f (dir f) len data

section Ingest

variable (utf16ToUtf8 : List UInt16 → List UInt8)

/-- `KndModel::ingest` of the record behind the pointer `p`. -/
def KndModel.ingest (m : KndModel) (p : Nat → UInt8) (now : Nat) : KndModel :=
  let rec' := KndRecord.read p
  let m := { m with stats := { m.stats with totalRecords := m.stats.totalRecords + 1 } }
  let body := fun i => p (sizeofKndRecord + i)
  if rec'.type = kndRecConnOpen then
    let cp := KndConnPayload.read body
    let m := m.touch cp.flowId now (fun f => f.onOpen utf16ToUtf8 rec' cp) rec'
      KndFlow.direction 0 body
    { m with stats := { m.stats with connOpens := m.stats.connOpens + 1 } }
  else if rec'.type = kndRecConnClose then
    let cp := KndConnPayload.read body
    let m := m.touch cp.flowId now (fun f => f.onClose rec' cp) rec' (fun _ => 0) 0 body
    { m with stats := { m.stats with connCloses := m.stats.connCloses + 1 } }
  else if rec'.type = kndRecData then
    let dp := KndDataPayload.read body
    let data := fun i => body (sizeofKndDataPayload + i)
    let m := m.touch dp.flowId now (fun f => f.onData m.payloadCap rec' dp data now) rec'
      (fun _ => dp.direction) dp.dataLength data
    let len := dp.dataLength.toUInt64
    let inbound := Dir.of dp.direction = .inbound
    { m with stats := { m.stats with
        inBytes := if inbound then m.stats.inBytes + len else m.stats.inBytes
        outBytes := if inbound then m.stats.outBytes else m.stats.outBytes + len
        sizeHist := m.stats.sizeHist.modify (sizeClass dp.dataLength.toNat) (· + 1)
        dataRecords := m.stats.dataRecords + 1
        payloadBytes := m.stats.payloadBytes + len } }
  else m

/-- The flow a record belongs to. -/
def recordFlow (p : Nat → UInt8) : Option UInt64 :=
  let type := (KndRecord.read p).type
  let body := fun i => p (sizeofKndRecord + i)
  if type = kndRecConnOpen ∨ type = kndRecConnClose then some (KndConnPayload.read body).flowId
  else if type = kndRecData then some (KndDataPayload.read body).flowId
  else none

/-- What a record does to its flow. -/
def KndFlow.on (f : KndFlow) (payloadCap : Nat) (p : Nat → UInt8) (now : Nat) : KndFlow :=
  let rec' := KndRecord.read p
  let body := fun i => p (sizeofKndRecord + i)
  if rec'.type = kndRecConnOpen then f.onOpen utf16ToUtf8 rec' (KndConnPayload.read body)
  else if rec'.type = kndRecConnClose then f.onClose rec' (KndConnPayload.read body)
  else if rec'.type = kndRecData then
    f.onData payloadCap rec' (KndDataPayload.read body)
      (fun i => body (sizeofKndDataPayload + i)) now
  else f

/-- The index of the flows agrees with their list. -/
def KndModel.WellFormed (m : KndModel) : Prop := m.table.Wf KndFlow.flowId

@[simp] theorem KndFlow.onOpen_flowId (f : KndFlow) (rec' : KndRecord) (p : KndConnPayload) :
    (f.onOpen utf16ToUtf8 rec' p).flowId = f.flowId := rfl

@[simp] theorem KndFlow.onClose_flowId (f : KndFlow) (rec' : KndRecord) (p : KndConnPayload) :
    (f.onClose rec' p).flowId = f.flowId := rfl

@[simp] theorem KndFlow.onData_flowId (f : KndFlow) (payloadCap : Nat) (rec' : KndRecord)
    (dp : KndDataPayload) (data : Nat → UInt8) (now : Nat) :
    (f.onData payloadCap rec' dp data now).flowId = f.flowId := rfl

theorem KndFlow.on_flowId (f : KndFlow) (payloadCap : Nat) (p : Nat → UInt8) (now : Nat) :
    (f.on utf16ToUtf8 payloadCap p now).flowId = f.flowId := by
  simp only [KndFlow.on]
  split
  · exact f.onOpen_flowId ..
  · split
    · exact f.onClose_flowId ..
    · split
      · exact f.onData_flowId ..
      · rfl

@[simp] theorem KndModel.pushPacket_table (m : KndModel) (rec' : KndRecord) (f : KndFlow)
    (dir : UInt8) (len : UInt32) (data : Nat → UInt8) :
    (m.pushPacket rec' f dir len data).table = m.table := rfl

@[simp] theorem KndModel.touch_stats (m : KndModel) (flowId : UInt64) (now : Nat)
    (g : KndFlow → KndFlow) (rec' : KndRecord) (dir : KndFlow → UInt8) (len : UInt32)
    (data : Nat → UInt8) : (m.touch flowId now g rec' dir len data).stats = m.stats := rfl

theorem KndModel.ingest_caps (m : KndModel) (p : Nat → UInt8) (now : Nat) :
    (m.ingest utf16ToUtf8 p now).payloadCap = m.payloadCap ∧
      (m.ingest utf16ToUtf8 p now).packetCap = m.packetCap := by
  simp only [KndModel.ingest]
  split
  · exact ⟨rfl, rfl⟩
  · split
    · exact ⟨rfl, rfl⟩
    · split <;> exact ⟨rfl, rfl⟩

@[simp] theorem KndModel.ingest_payloadCap (m : KndModel) (p : Nat → UInt8) (now : Nat) :
    (m.ingest utf16ToUtf8 p now).payloadCap = m.payloadCap := (m.ingest_caps utf16ToUtf8 p now).1

/-- `m'` has the entry `f` for the flow `k` and otherwise the entries of `m`. -/
def KndModel.Updated (m m' : KndModel) (k : UInt64) (f : KndFlow) : Prop :=
  m'.find k = some f ∧ ∀ id, id ≠ k → m'.find id = m.find id

theorem KndModel.updated_of_table {m m' : KndModel} (hm : m.WellFormed) (k : UInt64) (now : Nat)
    {g : KndFlow → KndFlow} (hg : ∀ f, (g f).flowId = f.flowId)
    (htable : m'.table = (m.table.ensure k (KndFlow.new k now)).1.modify
      (m.table.ensure k (KndFlow.new k now)).2 g) :
    m'.WellFormed ∧ m.Updated m' k (g ((m.find k).getD (KndFlow.new k now))) := by
  have hnew : (KndFlow.new k now).flowId = k := rfl
  obtain ⟨hwf, hfind⟩ := hm.update hnew hg
  rw [KndModel.WellFormed, KndModel.Updated, KndModel.find, htable]
  refine ⟨hwf, ?_, fun id hid => ?_⟩
  · rw [hfind, if_pos rfl]
    rfl
  · rw [KndModel.find, htable, hfind, if_neg hid]
    rfl

/-- A record changes its own flow and no other. -/
theorem KndModel.ingest_updated {m : KndModel} (hm : m.WellFormed) {p : Nat → UInt8} (now : Nat)
    {k : UInt64} (hk : recordFlow p = some k) :
    (m.ingest utf16ToUtf8 p now).WellFormed ∧
      m.Updated (m.ingest utf16ToUtf8 p now) k
        (((m.find k).getD (KndFlow.new k now)).on utf16ToUtf8 m.payloadCap p now) := by
  simp only [recordFlow] at hk
  simp only [KndModel.ingest, KndFlow.on]
  by_cases hopen : (KndRecord.read p).type = kndRecConnOpen
  · simp only [if_pos hopen, if_pos (Or.inl hopen), Option.some.injEq] at hk ⊢
    subst hk
    exact KndModel.updated_of_table hm _ now (fun f => f.onOpen_flowId utf16ToUtf8 _ _) rfl
  by_cases hclose : (KndRecord.read p).type = kndRecConnClose
  · simp only [if_neg hopen, if_pos hclose, if_pos (Or.inr hclose), Option.some.injEq] at hk ⊢
    subst hk
    exact KndModel.updated_of_table hm _ now (fun f => f.onClose_flowId _ _) rfl
  by_cases hdata : (KndRecord.read p).type = kndRecData
  · simp only [if_neg hopen, if_neg hclose, if_pos hdata, if_neg (not_or.mpr ⟨hopen, hclose⟩),
      Option.some.injEq] at hk ⊢
    subst hk
    exact KndModel.updated_of_table hm _ now (fun f => f.onData_flowId _ _ _ _ _) rfl
  · simp [hopen, hclose, hdata] at hk

/-- A record of no known type only counts. -/
theorem KndModel.ingest_other (m : KndModel) {p : Nat → UInt8} (now : Nat)
    (hp : recordFlow p = none) :
    m.ingest utf16ToUtf8 p now =
      { m with stats := { m.stats with totalRecords := m.stats.totalRecords + 1 } } := by
  simp only [recordFlow] at hp
  by_cases hconn : (KndRecord.read p).type = kndRecConnOpen ∨ (KndRecord.read p).type = kndRecConnClose
  · simp [hconn] at hp
  by_cases hdata : (KndRecord.read p).type = kndRecData
  · simp [if_neg hconn, if_pos hdata] at hp
  · rw [not_or] at hconn
    simp only [KndModel.ingest, hconn.1, hconn.2, hdata, if_false]

end Ingest

end NetDebugger
