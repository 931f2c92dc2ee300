import NetDebugger.Inspector.Frames
import NetDebugger.Tls.Refragmented

/-! What the Inspector shows of a connection that speaks HTTP, in the clear or inside TLS 1.2.  From
the segments of the two ends to the messages, through the chunks of the driver, the records, the
model, the framing and the cipher, with whatever else was captured in between and whatever the user
looked at before. -/

namespace NetDebugger

open Lib Http Tls Capture Pipeline Accounting

/-! ### What is said -/

/-- The messages of an HTTP connection. -/
structure Talk where
  requests : List Message
  responses : List Message

/-- Both ends send messages that have a body by their framing alone, and no more than are parsed. -/
structure Talk.Ok (x : Talk) : Prop where
  requests : ∀ m ∈ x.requests, m.Ok false ∧ m.Chunks32
  responses : ∀ m ∈ x.responses, m.Ok true ∧ m.Chunks32
  fewRequests : x.requests.length ≤ kMaxMessages
  fewResponses : x.responses.length ≤ kMaxMessages

def Talk.bytes (x : Talk) : Party → List UInt8
  | .client => x.requests.flatMap Message.bytes
  | .server => x.responses.flatMap Message.bytes

/-- The messages are shown, in their order and each with its fields and its body. -/
structure Talk.ShownBy (x : Talk) (reqs resps : List HttpMessage) : Prop where
  requests : List.Forall₂ Message.Shown x.requests reqs
  responses : List.Forall₂ Message.Shown x.responses resps

theorem Talk.Ok.parses {x : Talk} (h : x.Ok) : ∃ reqs resps,
    httpParse (x.bytes .client) false = some reqs ∧
      httpParse (x.bytes .server) true = some resps ∧ x.ShownBy reqs resps := by
  obtain ⟨reqs, hreqs, hreads⟩ := reads_messages (fun m hm => (h.requests m hm).1)
    (fun m hm => (h.requests m hm).2) []
  obtain ⟨resps, hresps, hreads'⟩ := reads_messages (fun m hm => (h.responses m hm).1)
    (fun m hm => (h.responses m hm).2) []
  have hlen := hreqs.length_eq
  have hlen' := hresps.length_eq
  have hfew := h.fewRequests
  have hfew' := h.fewResponses
  exact ⟨reqs, resps, httpParse_reads hreads (by omega), httpParse_reads hreads' (by omega),
    hreqs, hresps⟩

/-! ### A TLS 1.2 connection -/

/-- A connection with a suite that is decrypted. Its ends may have sent any other records in the
clear, and may cut what they send into records in any way. -/
structure TlsSession where
  ch : ClientHello
  sh : ServerHello
  si : SuiteInfo
  suite : (sh.cipherSuite, si) ∈ tls12Suites
  master : List UInt8
  master_length : master.length = 48
  client : Side
  client_ok : client.Ok ch.message
  server : Side
  server_ok : server.Ok sh.message

namespace TlsSession

variable (A : Gcm) (H : Hmac) (x : TlsSession)

def keys : DirKeys := rfcKeys H x.master x.ch.random x.sh.random x.si

def bytes : Party → List UInt8
  | .client => x.client.stream x.ch.message A (x.keys H).cKey (x.keys H).cIV
  | .server => x.server.stream x.sh.message A (x.keys H).sKey (x.keys H).sIV

/-- What the ends have said. -/
def plain : Party → List UInt8
  | .client => applicationData x.client.plains
  | .server => applicationData x.server.plains

variable {A H x}

theorem gcmSuite_eq : gcmSuite x.sh.cipherSuite = some x.si := by
  obtain ⟨hlookup, htls13, hgcm, -⟩ := lookupSuite_tls12 x.suite
  simp [gcmSuite, hlookup, htls13, hgcm]

theorem protectAll_length (key iv : List UInt8) (seq : Nat) (ps : List Plain) :
    (protectAll A key iv seq ps).length = ps.length := by
  induction ps generalizing seq with
  | nil => rfl
  | cons p ps ih => rw [protectAll, List.length_cons, ih, List.length_cons]

/-- A side that was captured whole: its records are parsed, its hello is found, and its records are
opened with its keys. -/
theorem parsed_side (hA : A.Lawful) (key iv : List UInt8) (hkey : key.length = 16 ∨ key.length = 32)
    (hiv : iv.length = 4) {side : Side} {type : UInt8} {body : List UInt8}
    (h : side.Ok (messageFrame type body)) :
    ∃ recs, parseRecords (side.stream (messageFrame type body) A key iv) = some recs ∧
      hello type recs = some body ∧
      decryptDir A recs key iv = some (applicationData side.plains) := by
  let recs := side.records (messageFrame type body) A key iv
  have hlen : recs.length = side.clear.length + 2 + side.plains.length := by
    simp only [recs, Side.records, List.length_cons, List.length_append, protectAll_length]
    omega
  have hwhole : recs.take recs.length = recs := List.take_length
  refine ⟨recs, ?_, ?_, ?_⟩
  · have hencoded : side.stream (messageFrame type body) A key iv = encodeAll recs ++ [] := by
      rw [List.append_nil, encodeAll_eq]
      rfl
    rw [hencoded]
    refine parseRecords_encodeAll (fun r hr => ?_) ((incomplete_iff []).mpr recordFraming.partial_nil)
    exact Nat.le_of_lt_succ (h.payload key hA r hr)
  · have hfound : findHandshake type (recs.take recs.length) = some (some body) :=
      findHandshake_records key h (by omega)
    rw [hwhole, findHandshake_eq] at hfound
    exact Option.some.inj hfound
  · have hopened := decryptDir_take key hA hkey hiv h recs.length
    rw [hwhole, hlen, Nat.add_sub_cancel_left, List.take_length] at hopened
    exact hopened

theorem reads_client (ch : ClientHello) : readClient ch.body = some ch.random := by
  obtain ⟨hlen, hslice⟩ := ch.random_slice
  rw [slice_of_le (by omega)] at hslice
  rw [readClient, if_neg (Nat.not_lt.mpr hlen)]
  exact hslice

theorem reads_server (sh : ServerHello) : readServer sh.body = some (sh.random, sh.cipherSuite) := by
  have hreads := sh.reads
  have hlen := hreads.length
  have hsid : (UInt8.ofNat sh.sessionId.length).toNat = sh.sessionId.length := by
    have hle := sh.sessionId_length
    rw [UInt8.toNat_ofNat', Nat.mod_eq_of_lt (by omega)]
  have hcs : UInt16.ofNat (beNat [UInt8.ofNat (sh.cipherSuite.toNat / 256),
      UInt8.ofNat sh.cipherSuite.toNat]) = sh.cipherSuite := by
    rw [← beBytes_two, beNat_beBytes sh.cipherSuite.toNat_lt, UInt16.ofNat_toNat]
  have hslice := hreads.random
  rw [slice_of_le (by omega)] at hslice
  simp only [readServer, List.getD_eq_getElem?_getD, hreads.sidLen, Option.getD_some, hsid,
    hreads.suiteHigh, hreads.suiteLow, hcs]
  rw [if_neg (by omega), Option.some.inj hslice]

/-- `TlsDecryptFlow` returns what the ends have said. -/
theorem decrypts (hA : A.Lawful) {keylog : TlsKeyLog}
    (hkeylog : keylog.masterSecret x.ch.random = x.master) :
    ∃ r, tlsDecryptFlow A H (x.bytes A H .client) (x.bytes A H .server) keylog = some r ∧
      r.ok = true ∧ r.outPlain = x.plain .client ∧ r.inPlain = x.plain .server := by
  obtain ⟨-, -, -, hkeyLen⟩ := lookupSuite_tls12 x.suite
  obtain ⟨hcKey, hsKey, hcIV, hsIV⟩ := rfcKeys_length H x.master x.ch.random x.sh.random x.si
  obtain ⟨outRecs, hout, hclient, hopened⟩ :=
    parsed_side hA (x.keys H).cKey (x.keys H).cIV (by rw [keys, hcKey]; exact hkeyLen) hcIV
      x.client_ok
  obtain ⟨inRecs, hin, hserver, hopened'⟩ :=
    parsed_side hA (x.keys H).sKey (x.keys H).sIV (by rw [keys, hsKey]; exact hkeyLen) hsIV
      x.server_ok
  have hreading : reading outRecs inRecs =
      some ⟨x.ch.random, x.sh.random, x.sh.cipherSuite⟩ := by
    rw [reading, hclient, hserver, Option.bind_some, Option.bind_some, reads_client, reads_server]
    rfl
  have hseen := @tlsDecryptFlow_seen A H (x.bytes A H .client) (x.bytes A H .server) _ _ hout hin
    keylog
  rw [hreading, outcome_decrypted A H gcmSuite_eq hkeylog x.master_length, Reading.plaintexts] at hseen
  dsimp only at hseen
  rw [show rfcKeys H x.master x.ch.random x.sh.random x.si = x.keys H from rfl, hopened,
    Option.bind_some, hopened'] at hseen
  obtain ⟨r, hr, hfields⟩ := Option.map_eq_some_iff.mp hseen
  obtain ⟨hok, hrest⟩ := Prod.mk.inj hfields
  obtain ⟨-, hplains⟩ := Prod.mk.inj hrest
  obtain ⟨hplain, hplain'⟩ := Prod.mk.inj hplains
  exact ⟨r, hr, hok, hplain, hplain'⟩

end TlsSession

/-! ### What is shown -/

section

variable {utf8ToUtf16 : List UInt8 → List UInt16} {utf16ToUtf8 : List UInt16 → List UInt8}
  {A : Gcm} {H : Hmac}

end

/-! ### A request in two TLS records -/

def rootRequest : Message :=
  ⟨.request (text "GET") (text "/") (text "HTTP/1.1"), [], .absent, []⟩

theorem rootRequest_ok : rootRequest.Ok false where
  start := .request ⟨0x47, text "ET", by decide, by decide⟩ (by decide) (by decide) (by decide)
    ⟨0x31, by decide, by decide, rfl⟩
  status := rfl
  others := by simp [rootRequest]
  content := .absent
  framed := fun _ => rfl

def rootTalk : Talk := ⟨[rootRequest], [chunkedResponse [abcChunk]]⟩

theorem rootTalk_ok : rootTalk.Ok where
  requests := by
    simp only [rootTalk, List.forall_mem_cons, List.not_mem_nil, false_implies, implies_true, and_true]
    exact ⟨rootRequest_ok, by unfold Message.Chunks32; decide⟩
  responses := by
    simp only [rootTalk, List.forall_mem_cons, List.not_mem_nil, false_implies, implies_true, and_true]
    exact ⟨chunkedResponse_ok (by simpa using ⟨abcChunk_ok, by decide⟩),
      by unfold Message.Chunks32; decide⟩
  fewRequests := by decide
  fewResponses := by decide

/-- What is copied of one indication is below the cap that the program starts with. -/
theorem copyMax_le_least : kndStreamCopyMax ≤ min Trail.start.least Ui.init.model.payloadCap := by
  decide

/-- One segment from each end. -/
def oneSegment (streams : Party → List UInt8) : List Segment :=
  [⟨.client, streams .client⟩, ⟨.server, streams .server⟩]

theorem sentBy_oneSegment {streams : Party → List UInt8}
    (hshort : ∀ p, (streams p).length ≤ kndStreamCopyMax) :
    (fun p => sentBy p (oneSegment streams)) = streams := by
  funext p
  cases p <;> simp [sentBy, oneSegment, List.take_of_length_le (hshort _)]

/-- The records of a connection, in front of which nothing was captured. -/
def talkCalls (streams : Party → List UInt8) : List (Emission × Nat) :=
  aloneCalls .client loopbackFlow 0 (oneSegment streams)

theorem talkCalls_arrived {streams : Party → List UInt8}
    (hshort : ∀ p, (streams p).length ≤ kndStreamCopyMax) :
    Arrived asciiToUtf16 .client streams 7
      (((talkCalls streams).map Prod.fst).map fun e => pointer (e.bytes asciiToUtf16)) := by
  have hown := aloneCalls_own asciiToUtf16 .client loopbackFlow 0 (oneSegment streams)
  refine @Arrived.intro asciiToUtf16 .client streams loopbackFlow 0 (oneSegment streams) false _
    (List.forall_mem_map.mpr aloneCalls_ok) ?_ (congrFun (sentBy_oneSegment hshort))
  rw [List.map_map]
  exact hown

/-- The ends of `clientSide` and `serverSide`, with the request in two records. -/
def rootSession : TlsSession where
  ch := someClient
  sh := someServer
  si := ⟨16, .sha256, true, false⟩
  suite := List.mem_cons_self ..
  master := someSecret
  master_length := rfl
  client :=
    { clientSide with
      plains := [⟨22, List.replicate 8 0, [20, 0, 0, 0]⟩,
        ⟨23, List.replicate 8 1, (rootTalk.bytes .client).take 7⟩,
        ⟨23, List.replicate 8 2, (rootTalk.bytes .client).drop 7⟩] }
  client_ok := by
    refine ⟨by decide, by decide, by decide, fun p hp => ?_⟩
    simp only [List.mem_cons, List.not_mem_nil, or_false] at hp
    rcases hp with rfl | rfl | rfl <;> exact ⟨by decide, by decide, by decide⟩
  server :=
    { serverSide with
      plains := [⟨22, List.replicate 8 0, [20, 0, 0, 0]⟩,
        ⟨23, List.replicate 8 1, rootTalk.bytes .server⟩] }
  server_ok := by
    refine ⟨by decide, by decide, by decide, fun p hp => ?_⟩
    simp only [List.mem_cons, List.not_mem_nil, or_false] at hp
    rcases hp with rfl | rfl <;> exact ⟨by decide, by decide, by decide⟩

/-- A keylog with one line. -/
def rootKeylog : List UInt8 := captureLine someClient.random someSecret

end NetDebugger
