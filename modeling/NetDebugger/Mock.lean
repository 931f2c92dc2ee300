import NetDebugger.Http.Sequences
import NetDebugger.Inspector.Proxied

/-! The demonstration data of `mock.cpp`.  It makes up connections and what is said on them, and feeds
records of it into the model beside those of the driver. -/

namespace NetDebugger

open Lib Http Tls

/-! ### The records -/

def mockHeader (type : UInt16) (length sequence : Nat) (timestamp : UInt64) : KndRecord where
  length := length % 2 ^ 32
  type := type
  flags := 0
  sequence := sequence % 2 ^ 64
  timestamp := timestamp

/-- The path as `MultiByteToWideChar` gives it, where it fits with its NUL. -/
def mockPath (utf8ToUtf16 : List UInt8 → List UInt16) (proc : List UInt8) : List UInt16 :=
  let wide := utf8ToUtf16 proc
  if wide.length + 1 ≤ kndProcPathChars then wide else []

def emitConnOpen (utf8ToUtf16 : List UInt8 → List UInt16) (sequence : Nat) (timestamp flow : UInt64)
    (proc rip : List UInt8) (rport : UInt16) : List UInt8 :=
  (mockHeader kndRecConnOpen (sizeofKndRecord + sizeofKndConnPayload) sequence timestamp).bytes ++
    KndConnPayload.bytes
      { flowId := flow
        processId := 4000 + flow % 1000
        protocol := kndProtoTcp
        ipVersion := kndIPv4
        direction := kndDirOutbound
        localPort := (50000 + flow % 10000).toUInt16
        remotePort := rport
        localAddr := fixedArray 0 16 [192, 168, 1, 50]
        remoteAddr := fixedArray 0 16 rip
        bytesIn := 0
        bytesOut := 0
        processPathChars := UInt16.ofNat (mockPath utf8ToUtf16 proc).length
        processPath := mockPath utf8ToUtf16 proc }

def emitData (sequence : Nat) (timestamp flow : UInt64) (dir : UInt8) (data : List UInt8) :
    List UInt8 :=
  (mockHeader kndRecData (sizeofKndRecord + sizeofKndDataPayload + data.length) sequence
    timestamp).bytes ++
    (KndDataPayload.bytes ⟨flow, dir, kndDataCiphertext, UInt32.ofNat data.length⟩ ++ data)

/-! ### `Mock_Pump` -/

def mockProcs : List (List UInt8) :=
  [text "C:\\Windows\\System32\\svchost.exe",
    text "C:\\Program Files\\Google\\Chrome\\chrome.exe",
    text "C:\\samples\\malware_sample.exe",
    text "C:\\Windows\\System32\\WindowsPowerShell\\v1.0\\powershell.exe",
    text "C:\\Users\\analyst\\AppData\\Local\\Discord\\Discord.exe",
    text "C:\\Windows\\System32\\curl.exe"]

def mockReq : List UInt8 :=
  text "GET /api/v1/telemetry?id=42 HTTP/1.1" ++ crlf ++ text "Host: cdn.example.net" ++ crlf ++
    text "User-Agent: Mozilla/5.0 (Windows NT 10.0; Win64; x64)" ++ crlf ++ text "Accept: */*" ++
    crlf ++ crlf

def mockResp : List UInt8 :=
  text "HTTP/1.1 200 OK" ++ crlf ++ text "Content-Type: application/json" ++ crlf ++
    text "Content-Length: 27" ++ crlf ++ crlf ++ text "\x7b\"ok\":true,\"value\":1234567\x7d" ++
    crlf

/-- What is said in a direction. -/
def mockText : Dir → List UInt8
  | .outbound => mockReq
  | .inbound => mockResp

/-- The statics of `mock.cpp`, and the model that is fed. -/
structure Mock where
  lastConn : Nat
  lastData : Nat
  seq : Nat
  nextFlow : UInt64
  flows : List UInt64
  model : KndModel

def Mock.start (payloadCap packetCap : Nat) : Mock :=
  ⟨0, 0, 1, 1000, [], KndModel.empty payloadCap packetCap⟩

/-- One call of `Mock_Pump`: the answers of `rand`, and of the clock for the two records. -/
structure Pump where
  now : Nat
  rand : Nat → Nat
  openTicks : UInt64
  dataTicks : UInt64

/-- Whether more seconds than 0.8 and than 0.12 lie between two times. -/
structure MockClock where
  connDue : Nat → Nat → Bool
  dataDue : Nat → Nat → Bool

section

variable (clock : MockClock) (utf8ToUtf16 : List UInt8 → List UInt16)
  (utf16ToUtf8 : List UInt16 → List UInt8)

/-- The first half, and how often it has asked `rand`. -/
def Mock.pumpConn (s : Mock) (e : Pump) : Mock × Nat :=
  if clock.connDue e.now s.lastConn ∧ s.flows.length < 14 then
    let proc := mockProcs.getD (e.rand 0 % 6) []
    let rip := [UInt8.ofNat (20 + e.rand 1 % 200), UInt8.ofNat (e.rand 2 % 255),
      UInt8.ofNat (e.rand 3 % 255), UInt8.ofNat (1 + e.rand 4 % 254)]
    let record := emitConnOpen utf8ToUtf16 s.seq e.openTicks s.nextFlow proc rip
      (if e.rand 5 % 2 ≠ 0 then 443 else 80)
    ({ s with
      lastConn := e.now
      seq := s.seq + 1
      nextFlow := s.nextFlow + 1
      flows := s.flows ++ [s.nextFlow]
      model := s.model.ingest utf16ToUtf8 (pointer record) e.now }, 6)
  else (s, 0)

/-- Which flow says something in the second half, and in which direction. -/
def Mock.speaker (s : Mock) (e : Pump) (asked : Nat) : Option Stream :=
  if s.flows ≠ [] ∧ clock.dataDue e.now s.lastData then
    some (s.flows.getD (e.rand asked % s.flows.length) 0,
      if e.rand (asked + 1) % 2 ≠ 0 then .outbound else .inbound)
  else none

def Mock.pumpData (s : Mock) (e : Pump) (asked : Nat) : Mock :=
  match s.speaker clock e asked with
  | some (flow, dir) =>
    let record := emitData s.seq e.dataTicks flow (Proxy.Dir.code dir) (mockText dir)
    { s with
      lastData := e.now
      seq := s.seq + 1
      model := s.model.ingest utf16ToUtf8 (pointer record) e.now }
  | none => s

/-- `Mock_Pump`. -/
def Mock.pump (s : Mock) (e : Pump) : Mock :=
  let (s, asked) := s.pumpConn clock utf8ToUtf16 utf16ToUtf8 e
  s.pumpData clock utf16ToUtf8 e asked

/-- Beside the pump, the driver's records come in and the capture is cleared. -/
inductive MockEvent
  | pump (e : Pump)
  | ingest (p : Nat → UInt8) (now : Nat)
  | clear

def Mock.step (s : Mock) : MockEvent → Option Mock
  | .pump e => some (s.pump clock utf8ToUtf16 utf16ToUtf8 e)
  | .ingest p now => some { s with model := s.model.ingest utf16ToUtf8 p now }
  | .clear => some { s with model := s.model.clear }

/-- One more for the stream that speaks. -/
def counted (said : Stream → Nat) : Option Stream → Stream → Nat
  | some k => Function.update said k (said k + 1)
  | none => said

/-- How often each stream has spoken since the capture was cleared. -/
def Mock.speaks (said : Stream → Nat) (s : Mock) : MockEvent → Stream → Nat
  | .pump e =>
    let (s, asked) := s.pumpConn clock utf8ToUtf16 utf16ToUtf8 e
    counted said (s.speaker clock e asked)
  | .ingest .. => said
  | .clear => fun _ => 0

end

/-- The event is not about the flow, beside what the pump says. -/
def MockEvent.Foreign (id : UInt64) : MockEvent → Prop
  | .ingest p _ => recordFlow p ≠ some id
  | .pump _ | .clear => True

/-! ### What the records mean -/

theorem mockHeader_read (type : UInt16) (length sequence : Nat) (timestamp : UInt64)
    (rest : List UInt8) :
    KndRecord.read (pointer ((mockHeader type length sequence timestamp).bytes ++ rest)) =
      mockHeader type length sequence timestamp := by
  have hlies := lies_pointer ((mockHeader type length sequence timestamp).bytes ++ rest) []
  rw [List.append_nil, lies_append] at hlies
  exact KndRecord.read_of_lies (Nat.mod_lt _ (Nat.two_pow_pos 32))
    (Nat.mod_lt _ (Nat.two_pow_pos 64)) hlies.1

theorem mockBody_lies (type : UInt16) (length sequence : Nat) (timestamp : UInt64)
    (rest : List UInt8) :
    Lies (fun i => pointer ((mockHeader type length sequence timestamp).bytes ++ rest)
      (sizeofKndRecord + i)) 0 rest := by
  have hlies := lies_pointer ((mockHeader type length sequence timestamp).bytes ++ rest) []
  rw [List.append_nil, lies_append, KndRecord.bytes_length] at hlies
  exact hlies.2.congr fun i _ => by rw [Nat.zero_add, Nat.zero_add]; rfl

theorem emitData_at (sequence : Nat) (timestamp flow : UInt64) (dir : UInt8) {data : List UInt8}
    (hlen : data.length < 2 ^ 32) :
    (Record.data ⟨flow, dir, kndDataCiphertext, UInt32.ofNat data.length⟩ data).At
      (pointer (emitData sequence timestamp flow dir data)) := by
  have hbody := mockBody_lies kndRecData (sizeofKndRecord + sizeofKndDataPayload + data.length)
    sequence timestamp
    (KndDataPayload.bytes ⟨flow, dir, kndDataCiphertext, UInt32.ofNat data.length⟩ ++ data)
  rw [lies_append, KndDataPayload.bytes_length] at hbody
  refine ⟨congrArg KndRecord.type (mockHeader_read ..), KndDataPayload.read_of_lies hbody.1, ?_, ?_⟩
  · show (UInt32.ofNat data.length).toNat = data.length
    rw [UInt32.toNat_ofNat']
    exact Nat.mod_eq_of_lt hlen
  · exact hbody.2.congr fun i _ => by rw [Nat.zero_add, Nat.zero_add]; rfl

theorem dataBytes_emitConnOpen (utf8ToUtf16 : List UInt8 → List UInt16) (sequence : Nat)
    (timestamp flow : UInt64) (proc rip : List UInt8) (rport : UInt16) (k : Stream) :
    dataBytes k (pointer (emitConnOpen utf8ToUtf16 sequence timestamp flow proc rip rport)) =
      [] := by
  refine dataBytes_of_not_feeds fun hfeeds => ?_
  have htype : kndRecConnOpen = kndRecData :=
    (congrArg KndRecord.type (mockHeader_read ..)).symm.trans hfeeds.1
  contradiction

theorem mockText_length (dir : Dir) : (mockText dir).length < 2 ^ 32 := by
  cases dir <;> decide +kernel

theorem dataBytes_emitData (sequence : Nat) (timestamp : UInt64) (k k' : Stream) :
    dataBytes k' (pointer (emitData sequence timestamp k.1 (Proxy.Dir.code k.2) (mockText k.2))) =
      if k = k' then mockText k.2 else [] := by
  rw [(feeds_of_at (emitData_at sequence timestamp k.1 (Proxy.Dir.code k.2)
    (mockText_length k.2)) k').2]
  simp only [Record.bytesFor, Proxy.Dir.of_code]

/-! ### Runs -/

section

variable {clock : MockClock} {utf8ToUtf16 : List UInt8 → List UInt16}
  {utf16ToUtf8 : List UInt16 → List UInt8} {cap : Nat} {id : UInt64} {s : Mock}
  {said : Stream → Nat}

/-- The connections are numbered from 1000 on, and the model has what has been said. -/
structure Mock.Told (cap : Nat) (id : UInt64) (s : Mock) (said : Stream → Nat) : Prop where
  flows : s.flows = (List.range s.flows.length).map fun i => 1000 + UInt64.ofNat i
  next : s.nextFlow = 1000 + UInt64.ofNat s.flows.length
  few : s.flows.length ≤ 14
  silent : ∀ k : Stream, k.1 ∉ s.flows → said k = 0
  payloadCap : s.model.payloadCap = cap
  model : ∃ past, s.model.Holds cap past ∧ ∀ dir,
    concatenation (id, dir) past = (List.replicate (said (id, dir)) (mockText dir)).flatten ∧
      (0 < said (id, dir) → ∃ p ∈ past, recordFlow p = some id)

theorem Mock.start_told (cap packetCap : Nat) (id : UInt64) :
    (Mock.start cap packetCap).Told cap id fun _ => 0 where
  flows := rfl
  next := by
    show (1000 : UInt64) = 1000 + UInt64.ofNat 0
    decide
  few := Nat.zero_le _
  silent := fun _ _ => rfl
  payloadCap := rfl
  model := ⟨[], holds_empty cap cap packetCap, fun _ => ⟨rfl, fun h => absurd h (Nat.lt_irrefl 0)⟩⟩

/-- A record without bytes of the flow changes nothing that is told. -/
theorem Mock.Told.ingest (h : s.Told cap id said) {p : Nat → UInt8}
    (hp : ∀ dir, dataBytes (id, dir) p = []) (now : Nat) :
    { s with model := s.model.ingest utf16ToUtf8 p now }.Told cap id said := by
  obtain ⟨past, hholds, hpast⟩ := h.model
  refine ⟨h.flows, h.next, h.few, h.silent, by rw [KndModel.ingest_payloadCap, h.payloadCap],
    past ++ [p], hholds.ingest (Nat.le_of_eq h.payloadCap.symm) p now, fun dir => ?_⟩
  obtain ⟨hconcat, hknown⟩ := hpast dir
  refine ⟨?_, fun hpos => ?_⟩
  · rw [concatenation_snoc, hp dir, List.append_nil, hconcat]
  · obtain ⟨q, hq, hid⟩ := hknown hpos
    exact ⟨q, List.mem_append_left _ hq, hid⟩

theorem Mock.Told.pumpConn (h : s.Told cap id said) (e : Pump) :
    (s.pumpConn clock utf8ToUtf16 utf16ToUtf8 e).1.Told cap id said := by
  unfold Mock.pumpConn
  split
  · next hdue =>
    have hfed := @Mock.Told.ingest utf16ToUtf8 _ _ _ _ h _
      (fun dir => dataBytes_emitConnOpen utf8ToUtf16 s.seq e.openTicks s.nextFlow
        (mockProcs.getD (e.rand 0 % 6) [])
        [UInt8.ofNat (20 + e.rand 1 % 200), UInt8.ofNat (e.rand 2 % 255),
          UInt8.ofNat (e.rand 3 % 255), UInt8.ofNat (1 + e.rand 4 % 254)]
        (if e.rand 5 % 2 ≠ 0 then 443 else 80) (id, dir)) e.now
    refine ⟨?_, ?_, ?_, fun k hk => h.silent k fun hmem => hk (List.mem_append_left _ hmem),
      hfed.payloadCap, hfed.model⟩
    · rw [List.length_append, List.length_singleton, List.range_succ, List.map_append,
        List.map_singleton, ← h.flows, h.next]
    · rw [List.length_append, List.length_singleton, h.next, UInt64.ofNat_add, UInt64.add_assoc]
      rfl
    · rw [List.length_append, List.length_singleton]
      exact hdue.2
  · exact h

theorem Mock.speaker_mem {e : Pump} {asked : Nat} {k : Stream}
    (h : s.speaker clock e asked = some k) : k.1 ∈ s.flows := by
  unfold Mock.speaker at h
  split at h
  · next hdue =>
    obtain rfl := Option.some.inj h
    have hpos := List.length_pos_iff.mpr hdue.1
    have hlt := Nat.mod_lt (e.rand asked) hpos
    rw [List.getD_eq_getElem _ _ hlt]
    exact List.getElem_mem hlt
  · contradiction

theorem Mock.Told.pumpData (h : s.Told cap id said) (e : Pump) (asked : Nat) :
    (s.pumpData clock utf16ToUtf8 e asked).Told cap id
      (counted said (s.speaker clock e asked)) := by
  unfold Mock.pumpData
  cases hspeaker : s.speaker clock e asked with
  | none => exact h
  | some k =>
    obtain ⟨past, hholds, hpast⟩ := h.model
    have hmem := Mock.speaker_mem hspeaker
    refine ⟨h.flows, h.next, h.few, fun k' hk' => ?_, by rw [KndModel.ingest_payloadCap, h.payloadCap],
      _, hholds.ingest (Nat.le_of_eq h.payloadCap.symm) _ e.now, fun dir => ?_⟩
    · have hne : k' ≠ k := fun heq => hk' (heq ▸ hmem)
      rw [counted, Function.update_of_ne hne]
      exact h.silent k' hk'
    obtain ⟨hconcat, hknown⟩ := hpast dir
    have hbytes := dataBytes_emitData s.seq e.dataTicks k (id, dir)
    by_cases hk : k = (id, dir)
    · subst hk
      rw [if_pos rfl] at hbytes
      have hat := emitData_at s.seq e.dataTicks id (Proxy.Dir.code dir) (mockText_length dir)
      refine ⟨?_, fun _ => ⟨_, List.mem_append_right _ (List.mem_singleton_self _),
        recordFlow_of_at hat⟩⟩
      rw [concatenation_snoc, hbytes, hconcat, counted, Function.update_self, List.replicate_succ',
        List.flatten_append, List.flatten_singleton]
    · rw [if_neg hk] at hbytes
      rw [counted, Function.update_of_ne (Ne.symm hk)]
      refine ⟨by rw [concatenation_snoc, hbytes, List.append_nil, hconcat], fun hpos => ?_⟩
      obtain ⟨q, hq, hid⟩ := hknown hpos
      exact ⟨q, List.mem_append_left _ hq, hid⟩

theorem dataBytes_foreign {p : Nat → UInt8} (hp : recordFlow p ≠ some id) (dir : Dir) :
    dataBytes (id, dir) p = [] :=
  dataBytes_of_not_feeds fun hfeeds => hp hfeeds.recordFlow

theorem Mock.Told.step (h : s.Told cap id said) {e : MockEvent} (he : e.Foreign id) {t : Mock}
    (hstep : s.step clock utf8ToUtf16 utf16ToUtf8 e = some t) :
    t.Told cap id (Mock.speaks clock utf8ToUtf16 utf16ToUtf8 said s e) := by
  cases e with
  | pump e =>
    obtain rfl := Option.some.inj hstep
    exact (h.pumpConn e).pumpData e _
  | ingest p now =>
    obtain rfl := Option.some.inj hstep
    exact h.ingest (dataBytes_foreign he) now
  | clear =>
    obtain rfl := Option.some.inj hstep
    exact ⟨h.flows, h.next, h.few, fun _ _ => rfl, h.payloadCap, [], holds_empty _ _ _, fun _ =>
      ⟨rfl, fun hpos => absurd hpos (Nat.lt_irrefl 0)⟩⟩

theorem Mock.run_told {packetCap : Nat} {es : List MockEvent} (hes : ∀ e ∈ es, e.Foreign id)
    (hrun : runEvents (withHistory (Mock.step clock utf8ToUtf16 utf16ToUtf8)
      (Mock.speaks clock utf8ToUtf16 utf16ToUtf8)) (.start cap packetCap, fun _ => 0) es =
        some (s, said)) : s.Told cap id said := by
  refine @runEvents_invariant _ _ _ (MockEvent.Foreign id)
    (fun y : Mock × (Stream → Nat) => y.1.Told cap id y.2) ?_ _ _ _
    (Mock.start_told cap packetCap id) hes hrun
  intro y e z he hy hz
  obtain ⟨t, ht, rfl⟩ := Option.map_eq_some_iff.mp hz
  exact hy.step he ht

end

/-! ### What is said -/

def demoRequest : Message :=
  ⟨.request (text "GET") (text "/api/v1/telemetry?id=42") (text "HTTP/1.1"),
    [⟨text "Host", text "cdn.example.net", [0x20], []⟩,
      ⟨text "User-Agent", text "Mozilla/5.0 (Windows NT 10.0; Win64; x64)", [0x20], []⟩,
      ⟨text "Accept", text "*/*", [0x20], []⟩], .absent, []⟩

def demoResponse : Message :=
  ⟨okStart, [⟨text "Content-Type", text "application/json", [0x20], []⟩],
    .sized (lengthField (text "27")) (text "\x7b\"ok\":true,\"value\":1234567\x7d"), []⟩

theorem spacedField_ok {name value : List UInt8} (hname : name ≠ [] ∧ ∀ c ∈ name, isToken c = true)
    (hvalue : ∀ c ∈ value, InLine c) (htrimmed : Trimmed value) :
    Field.Ok ⟨name, value, [0x20], []⟩ where
  name := hname
  value := hvalue
  trimmed := htrimmed
  before := fun c hc => .inl (List.mem_singleton.mp hc)
  after := by simp [Blank]

theorem demoRequest_ok : demoRequest.Ok false where
  start := .request ⟨0x47, text "ET", by decide, by decide⟩ (by decide) (by decide) (by decide)
    ⟨0x31, by decide, by decide, rfl⟩
  status := rfl
  others := by
    simp only [demoRequest, List.append_nil, List.forall_mem_cons, List.not_mem_nil,
      false_implies, implies_true, and_true]
    exact ⟨⟨spacedField_ok (by decide) (by decide) (by decide), by decide, by decide⟩,
      ⟨spacedField_ok (by decide) (by decide) (by decide), by decide, by decide⟩,
      ⟨spacedField_ok (by decide) (by decide) (by decide), by decide, by decide⟩⟩
  content := .absent
  framed := fun _ => rfl

theorem demoLength :
    Numeral 10 (text "27") (text "\x7b\"ok\":true,\"value\":1234567\x7d").length :=
  ⟨by decide, by decide, by decide⟩

theorem demoResponse_ok : demoResponse.Ok true where
  start := okStart_ok
  status := rfl
  others := by
    simp only [demoResponse, List.append_nil, List.forall_mem_cons, List.not_mem_nil,
      false_implies, implies_true, and_true]
    exact ⟨spacedField_ok (by decide) (by decide) (by decide), by decide, by decide⟩
  content := .sized (lengthField_ok demoLength) (by simp only [lengthField]; decide) demoLength
    (by decide)
  framed := nofun

/-- What is said is a message each time, with an empty line behind a response. -/
theorem mockText_eq : mockReq = demoRequest.bytes ++ [] ∧ mockResp = demoResponse.bytes ++ crlf := by
  decide +kernel

/-- Over every run of the pump beside other records: at most fourteen flows from 1000 on speak, and
of each that has spoken since the capture was cleared the HTTP tab shows the messages, one for each
time. -/
theorem demo_shown (A : Gcm) (H : Hmac) {clock : MockClock}
    {utf8ToUtf16 : List UInt8 → List UInt16} {utf16ToUtf8 : List UInt16 → List UInt8}
    {cap packetCap : Nat} (hsmall : cap ≤ maxPayload) {id : UInt64} {es : List MockEvent}
    (hes : ∀ e ∈ es, e.Foreign id) {s : Mock} {said : Stream → Nat}
    (hrun : runEvents (withHistory (Mock.step clock utf8ToUtf16 utf16ToUtf8)
      (Mock.speaks clock utf8ToUtf16 utf16ToUtf8)) (.start cap packetCap, fun _ => 0) es =
        some (s, said))
    {dir : Dir} (hspoken : 0 < said (id, dir)) (hfew : ∀ d, said (id, d) ≤ kMaxMessages)
    (hcap : ∀ d, said (id, d) * (mockText d).length ≤ cap) (keylog : KeyMap) :
    (∃ i < 14, id = 1000 + UInt64.ofNat i) ∧
      ∃ v w, inspect A H s.model id keylog = some (v, w) ∧
        v.reqs.length = said (id, .outbound) ∧ (∀ p ∈ v.reqs, demoRequest.Shown p) ∧
        v.resps.length = said (id, .inbound) ∧ ∀ p ∈ v.resps, demoResponse.Shown p := by
  have htold := Mock.run_told hes hrun
  obtain ⟨past, hholds, hpast⟩ := htold.model
  have hmem : id ∈ s.flows := by
    by_contra hnot
    exact absurd (htold.silent (id, dir) hnot) (Nat.ne_of_gt hspoken)
  rw [htold.flows] at hmem
  obtain ⟨i, hi, hid⟩ := List.mem_map.mp hmem
  refine ⟨⟨i, Nat.lt_of_lt_of_le (List.mem_range.mp hi) htold.few, hid.symm⟩, ?_⟩
  obtain ⟨record, hrecord, hflow⟩ := (hpast dir).2 hspoken
  obtain ⟨f, hf⟩ := Option.isSome_iff_exists.mp (hholds.known id record hrecord hflow)
  have hpayload : ∀ d, f.payload d = (List.replicate (said (id, d)) (mockText d)).flatten := by
    intro d
    have hwhole : ((List.replicate (said (id, d)) (mockText d)).flatten).length ≤ cap := by
      rw [List.length_flatten, List.map_replicate, List.sum_replicate_nat]
      exact hcap d
    rw [← (hpast d).1] at hwhole
    have hheld := hholds.whole (id, d) hwhole
    rw [KndModel.flow, hf, Option.getD_some, (hpast d).1] at hheld
    exact hheld
  have hlength : ∀ d, (f.payload d).length ≤ maxPayload := by
    intro d
    rw [hpayload d, List.length_flatten, List.map_replicate, List.sum_replicate_nat]
    exact Nat.le_trans (hcap d) hsmall
  obtain ⟨reqs, hreqs, hcount, hshown⟩ := httpParse_repeated demoRequest_ok
    (by unfold Message.Chunks32; decide) (.inl rfl) (hfew .outbound)
  obtain ⟨resps, hresps, hcount', hshown'⟩ := httpParse_repeated demoResponse_ok
    (by unfold Message.Chunks32; decide) (.inr rfl) (hfew .inbound)
  rw [← mockText_eq.1] at hreqs
  rw [← mockText_eq.2] at hresps
  have hparse : f.shown.parse = some ⟨reqs, resps⟩ := by
    refine Shown.parse_eq.mpr ⟨?_, ?_⟩
    · rw [← hreqs]
      exact congrArg (httpParse · false) (hpayload .outbound)
    · rw [← hresps]
      exact congrArg (httpParse · true) (hpayload .inbound)
  obtain ⟨w, hw⟩ := Ciphered.decrypt_total A H ⟨f.shown, keylog⟩
  refine ⟨⟨reqs, resps⟩, w, ?_, hcount, hshown, hcount', hshown'⟩
  rw [inspect_eq A H hf ⟨hlength .outbound, hlength .inbound⟩ keylog, hparse, Option.bind_some, hw,
    Option.map_some]

/-- A clock in whole steps. -/
def stepClock : MockClock := ⟨fun now last => decide (last < now), fun now last => decide (last < now)⟩

/-- Two calls of the pump around a record of the driver: the first flow asks and is answered. -/
def twoPumps : List MockEvent :=
  [.pump ⟨1, fun _ => 1, 0, 0⟩,
    .ingest (pointer (Proxy.buildData 7 kndDirOutbound [1] 0)) 1,
    .pump ⟨2, fun _ => 0, 0, 0⟩]

theorem twoPumps_foreign : ∀ e ∈ twoPumps, e.Foreign 1000 := by
  have hrecord : recordFlow (pointer (Proxy.buildData 7 kndDirOutbound [1] 0)) = some 7 := by
    decide +kernel
  simp only [twoPumps, List.forall_mem_cons, List.not_mem_nil, false_implies, implies_true, and_true]
  refine ⟨trivial, ?_, trivial⟩
  rw [MockEvent.Foreign, hrecord]
  decide

theorem demo_shown_twoPumps : ∃ s said,
    runEvents (withHistory (Mock.step stepClock Accounting.asciiToUtf16 Accounting.asciiToUtf8)
      (Mock.speaks stepClock Accounting.asciiToUtf16 Accounting.asciiToUtf8))
      (.start (capBytes 4) 50000, fun _ => 0) twoPumps = some (s, said) ∧
    ∃ v w, inspect sumGcm cutHmac s.model 1000 ∅ = some (v, w) ∧ v.reqs.length = 1 ∧
      (∀ p ∈ v.reqs, demoRequest.Shown p) ∧ v.resps.length = 1 ∧
        ∀ p ∈ v.resps, demoResponse.Shown p := by
  obtain ⟨⟨s, said⟩, hrun⟩ : ∃ y, runEvents (withHistory
      (Mock.step stepClock Accounting.asciiToUtf16 Accounting.asciiToUtf8)
      (Mock.speaks stepClock Accounting.asciiToUtf16 Accounting.asciiToUtf8))
      (.start (capBytes 4) 50000, fun _ => 0) twoPumps = some y :=
    Option.isSome_iff_exists.mp (by decide +kernel)
  have hsaid : (runEvents (withHistory
      (Mock.step stepClock Accounting.asciiToUtf16 Accounting.asciiToUtf8)
      (Mock.speaks stepClock Accounting.asciiToUtf16 Accounting.asciiToUtf8))
      (.start (capBytes 4) 50000, fun _ => 0) twoPumps).map
        (fun y => (y.2 (1000, .outbound), y.2 (1000, .inbound))) = some (1, 1) := by
    decide +kernel
  rw [hrun, Option.map_some, Option.some.injEq, Prod.mk.injEq] at hsaid
  have hone : ∀ d, said (1000, d) = 1 := by
    intro d
    cases d
    · exact hsaid.1
    · exact hsaid.2
  have hcap : ∀ d, said (1000, d) * (mockText d).length ≤ capBytes 4 := by
    intro d
    rw [hone d]
    cases d <;> decide +kernel
  have hspoken : 0 < said (1000, .outbound) := by
    rw [hone]
    decide
  obtain ⟨-, v, w, hinspect, hreqs, hrequests, hresps, hresponses⟩ := demo_shown sumGcm cutHmac
    (capBytes_le 4) twoPumps_foreign hrun hspoken (fun d => by rw [hone d]; decide) hcap ∅
  exact ⟨s, said, hrun, v, w, hinspect, hreqs.trans (hone _), hrequests, hresps.trans (hone _),
    hresponses⟩

end NetDebugger
