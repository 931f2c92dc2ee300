import NetDebugger.Http.Opening
import NetDebugger.Inspector.Caches
import NetDebugger.Model.Accounting
import NetDebugger.Tls.Hellos

/-! Who is the client.  A connection is captured at one of its ends, and what that end sends is the
outbound payload.  The Inspector takes the outbound payload for what a client sends, whatever the
direction of the flow. -/

namespace NetDebugger

open Lib Http Tls Capture Pipeline Accounting

/-- The ends of a connection. -/
inductive Party
  | client
  | server
deriving DecidableEq

def Party.other : Party → Party
  | .client => .server
  | .server => .client

/-- What an end sends at a time. -/
structure Segment where
  sender : Party
  data : List UInt8

/-- The indication of a segment at the end `here`, which receives what the other end sends. -/
def Segment.indication (here : Party) (flowId : UInt64) (flowHandle : Option UInt64) (s : Segment) :
    Indication where
  receive := s.sender ≠ here
  flowContext := flowId
  flowHandle := flowHandle
  data := s.data

/-- What the callouts write for a connection: its flow, which is inbound where the server is `here`,
the chunks of its indications, and perhaps its end. -/
def captureCalls (here : Party) (f : FlowFields) (next : UInt64) (x : List Segment) (deleted : Bool) :
    List Source :=
  let flowId := (openPayload f next).flowId
  .opened { f with inbound := here = .server } next ::
    ((x.flatMap fun s =>
      let i := s.indication here flowId f.flowHandle
      (kndClassifyStream i).map (.data (stream i) i.flags ·)) ++
    if deleted then [.closed flowId] else [])

/-- What is copied of the stream that an end sends. -/
def sentBy (p : Party) (x : List Segment) : List UInt8 :=
  x.flatMap fun s => if s.sender = p then s.data.take kndStreamCopyMax else []

/-- The buffer of what an end sends. -/
def Party.dir (here p : Party) : Dir := if p = here then .outbound else .inbound

section

variable (utf8ToUtf16 : List UInt8 → List UInt16) (utf16ToUtf8 : List UInt16 → List UInt8)

/-- The model has ingested the flow of a connection with these streams, captured at the end `here`,
among whatever else the driver and the proxy emitted. -/
inductive Captured (cap : Nat) (here : Party) (streams : Party → List UInt8) :
    UInt64 → KndModel → Prop
  | intro {f : FlowFields} {next : UInt64} {x : List Segment} {deleted : Bool}
      {es : List (Emission × Nat)} {packetCap : Nat}
      (ok : ∀ e ∈ es, e.1.Ok)
      (own : (recordsOf utf8ToUtf16 es).filter (fun r => r.flowId = (openPayload f next).flowId) =
        (captureCalls here f next x deleted).map Source.record)
      (same : ∀ p, sentBy p x = streams p) :
      Captured cap here streams (openPayload f next).flowId
        (ingestAll utf8ToUtf16 utf16ToUtf8 (KndModel.empty cap packetCap) es)

end

/-- The first frame of the Decrypted tab that shows the flow: the messages, and what is decrypted. -/
def inspect (A : Gcm) (H : Hmac) (m : KndModel) (flowId : UInt64) (keylog : KeyMap) :
    Option (Parses × Decrypts) :=
  let u : Ui := { Ui.init with model := m, selectedFlow := flowId, keylog, keylogLoaded := true }
  (drawInspector A H u .decrypted).map fun u => (u.http.value, u.dec.value)

/-- The captured streams of an HTTP or a TLS 1.2 exchange: no status line comes from the client, what
the server sends in the place of a request line is a status line, and not both send both hellos. -/
structure Exchange (client server : List UInt8) : Prop where
  asks : ¬text "HTTP/" <+: afterBlank client
  answers : Opens false server → text "HTTP/" <+: afterBlank server
  hellos : ¬((HoldsClientHello client ∧ HoldsServerHello client) ∧
    HoldsClientHello server ∧ HoldsServerHello server)

/-- Nothing is captured that could be shown: no head of a message, and no ClientHello, or two of them
without a ServerHello. -/
structure Silent (client server : List UInt8) : Prop where
  requests : ¬Opens false client ∧ ¬Opens false server
  responses : ¬Opens true server
  hellos : (¬HoldsClientHello client ∧ ¬HoldsClientHello server) ∨
    (HoldsClientHello client ∧ HoldsClientHello server) ∧
      ¬HoldsServerHello client ∧ ¬HoldsServerHello server

/-! ### The capture -/

theorem indication_stream (here : Party) (f : FlowFields) (next : UInt64) (s : Segment) :
    stream (s.indication here (openPayload f next).flowId f.flowHandle) =
      ((openPayload f next).flowId, here.dir s.sender) := by
  have hflow : (s.indication here (openPayload f next).flowId f.flowHandle).flowId =
      (openPayload f next).flowId := by
    show (if (openPayload f next).flowId ≠ 0 then (openPayload f next).flowId
      else f.flowHandle.getD 0) = (openPayload f next).flowId
    by_cases hzero : (openPayload f next).flowId = 0
    · rw [if_neg (not_not.mpr hzero), hzero]
      cases hhandle : f.flowHandle with
      | none => rfl
      | some handle => simpa [openPayload, hhandle] using hzero
    · exact if_pos hzero
  have hdir : Dir.of (s.indication here (openPayload f next).flowId f.flowHandle).direction =
      here.dir s.sender := by
    simp only [Indication.direction, Segment.indication, Party.dir]
    by_cases h : s.sender = here <;> simp [h, Dir.of, kndDirInbound, kndDirOutbound]
  rw [stream, hflow, hdir]

theorem dir_injective (here : Party) {p q : Party} : here.dir p = here.dir q ↔ p = q := by
  cases here <;> cases p <;> cases q <;> decide

/-- The bytes that a capture has of what an end sends. -/
theorem bytesOf_captureCalls (here p : Party) (f : FlowFields) (next : UInt64) (x : List Segment)
    (deleted : Bool) :
    bytesOf ((openPayload f next).flowId, here.dir p)
      ((captureCalls here f next x deleted).map Source.record) = sentBy p x := by
  have hchunks : ∀ s : Segment, (((kndClassifyStream
      (s.indication here (openPayload f next).flowId f.flowHandle)).map
        (Source.data (stream (s.indication here (openPayload f next).flowId f.flowHandle))
          (s.indication here (openPayload f next).flowId f.flowHandle).flags ·)).map
        Source.record).flatMap (Record.bytesFor ((openPayload f next).flowId, here.dir p)) =
      if s.sender = p then s.data.take kndStreamCopyMax else [] := by
    intro s
    have hdir := @dir_injective here s.sender p
    rw [List.map_map, List.flatMap_map, indication_stream]
    simp only [Function.comp_apply, bytesFor_data, Prod.mk.injEq, true_and, hdir]
    by_cases hp : s.sender = p
    · simp only [if_pos hp]
      exact List.flatMap_id'.trans (kndClassifyStream_flatten _)
    · simp only [if_neg hp]
      simp
  have hend : ((if deleted then [Source.closed (openPayload f next).flowId] else []).map
      Source.record).flatMap (Record.bytesFor ((openPayload f next).flowId, here.dir p)) = [] := by
    cases deleted <;> rfl
  rw [captureCalls, bytesOf, sentBy]
  simp only [List.map_cons, List.map_append, List.flatMap_cons, List.flatMap_append, hend,
    List.append_nil, List.map_flatMap, List.flatMap_assoc, hchunks]
  rfl

/-- Records of other flows carry nothing for a stream. -/
theorem bytesOf_filter (k : Stream) (rs : List Record) :
    bytesOf k (rs.filter fun r => r.flowId = k.1) = bytesOf k rs := by
  induction rs with
  | nil => rfl
  | cons r rs ih =>
    have hcons : ∀ ss, bytesOf k (r :: ss) = r.bytesFor k ++ bytesOf k ss := fun _ => rfl
    by_cases hr : r.flowId = k.1
    · rw [List.filter_cons_of_pos (by simpa using hr), hcons, hcons, ih]
    · rw [List.filter_cons_of_neg (by simpa using hr), hcons, bytesFor_of_flow_ne hr, ih,
        List.nil_append]

variable {utf8ToUtf16 : List UInt8 → List UInt16} {utf16ToUtf8 : List UInt16 → List UInt8}

/-- Each payload of the captured flow is the front of what was captured of one end. -/
theorem Captured.payload {cap : Nat} {here : Party} {streams : Party → List UInt8} {id : UInt64}
    {m : KndModel} (h : Captured utf8ToUtf16 utf16ToUtf8 cap here streams id m) :
    ∃ f, m.find id = some f ∧ f.flowId = id ∧
      ∀ p, f.payload (here.dir p) = (streams p).take cap := by
  obtain @⟨f, next, x, deleted, es, packetCap, hok, hown, hsame⟩ := h
  have hcounts := @ingestAll_counts utf8ToUtf16 utf16ToUtf8 _ _ _ _
    (counts_clear (KndModel.empty cap packetCap)) hok
  rw [List.nil_append] at hcounts
  have hmodel : (KndModel.empty cap packetCap).clear = KndModel.empty cap packetCap := rfl
  rw [hmodel] at hcounts
  have hopened : (captureCalls here f next x deleted).map Source.record =
      .opened (openPayload { f with inbound := here = .server } next) ::
        ((captureCalls here f next x deleted).map Source.record).tail := rfl
  have hmem : Record.opened (openPayload { f with inbound := here = .server } next) ∈
      recordsOf utf8ToUtf16 es := by
    apply List.mem_of_mem_filter (p := fun r => r.flowId = (openPayload f next).flowId)
    rw [hown, hopened]
    exact List.mem_cons_self ..
  obtain ⟨fl, hfl⟩ := Option.isSome_iff_exists.mp (hcounts.known _ hmem)
  have hfl' : (ingestAll utf8ToUtf16 utf16ToUtf8 (KndModel.empty cap packetCap) es).find
      (openPayload f next).flowId = some fl := hfl
  refine ⟨fl, hfl', hcounts.tracks.wellFormed.key_of_find hfl', fun p => ?_⟩
  have hpayload := hcounts.tracks.payload (openPayload f next).flowId (here.dir p)
  rw [KndModel.flow, hfl', Option.getD_some, ← bytesOf_filter, hown, bytesOf_captureCalls,
    hsame] at hpayload
  exact hpayload

/-! ### What is shown -/

section

variable (A : Gcm) (H : Hmac)

/-- The first frame parses and decrypts. -/
theorem inspect_eq {m : KndModel} {id : UInt64} {f : KndFlow} (hf : m.find id = some f)
    (hsmall : f.shown.Small) (keylog : KeyMap) : inspect A H m id keylog =
      f.shown.parse.bind fun v => (Ciphered.decrypt A H ⟨f.shown, keylog⟩).map fun w => (v, w) := by
  obtain ⟨v, hv⟩ := f.shown.parse_total
  obtain ⟨w, hw⟩ := Ciphered.decrypt_total A H ⟨f.shown, keylog⟩
  have hparse : Ui.init.http.refresh Shown.parseKey Shown.parse f.shown =
      some ⟨f.shown.parseKey, v⟩ := by
    rw [Memo.refresh, hv]
    exact if_pos hsmall.parseKey
  have hdecrypt : Ui.init.dec.refresh Ciphered.decryptKey (Ciphered.decrypt A H)
      ⟨f.shown, keylog⟩ = some ⟨Ciphered.decryptKey ⟨f.shown, keylog⟩, w⟩ := by
    rw [Memo.refresh, hw]
    exact if_pos (hsmall.decryptKey keylog)
  simp only [inspect, drawInspector, hf, hparse, hdecrypt, hv, hw, Option.bind_eq_bind,
    Option.bind_some, and_self, if_true, Option.map_some]

/-- Exchanged streams parse to the same only where nothing opens with a head. -/
theorem parse_swap_iff {client server : List UInt8} (h : Exchange client server) (id id' : UInt64) :
    Shown.parse ⟨id, client, server⟩ = Shown.parse ⟨id', server, client⟩ ↔
      (¬Opens false client ∧ ¬Opens false server) ∧ ¬Opens true server := by
  have hquiet : httpParse client true = some [] :=
    (httpParse_nil_iff client true).mpr fun hopens => h.asks hopens.status
  obtain ⟨cs, hcs, -⟩ := httpParse_total client false
  obtain ⟨ss, hss, -⟩ := httpParse_total server false
  obtain ⟨rs, hrs, -⟩ := httpParse_total server true
  have hparse : Shown.parse ⟨id, client, server⟩ = some ⟨cs, rs⟩ := Shown.parse_eq.mpr ⟨hcs, hrs⟩
  have hparse' : Shown.parse ⟨id', server, client⟩ = some ⟨ss, []⟩ :=
    Shown.parse_eq.mpr ⟨hss, hquiet⟩
  rw [← httpParse_nil_iff, ← httpParse_nil_iff, ← httpParse_nil_iff, hcs, hss, hrs, hparse, hparse']
  simp only [Option.some.injEq, Parses.mk.injEq]
  -- a request of the server has a method that no request of the client has
  have hdiffer : ∀ q qs, cs = q :: qs → ss = q :: qs → False := by
    rintro q qs rfl rfl
    have hopens : Opens false server := by
      by_contra hno
      rw [(httpParse_nil_iff server false).mpr hno] at hss
      cases hss
    have hmethod := (method_status_iff hss).mpr (h.answers hopens)
    exact h.asks ((method_status_iff hcs).mp hmethod)
  constructor
  · rintro ⟨hsame, hnil⟩
    refine ⟨?_, hnil⟩
    cases cs with
    | nil => exact ⟨rfl, hsame.symm⟩
    | cons q qs => exact (hdiffer q qs rfl hsame.symm).elim
  · rintro ⟨⟨hcs', hss'⟩, hnil⟩
    exact ⟨hcs'.trans hss'.symm, hnil⟩

/-- What is decrypted depends on the streams by the result of `TlsDecryptFlow`. -/
theorem decrypt_swap_iff (client server : List UInt8) (keylog : KeyMap) (id id' : UInt64) :
    Ciphered.decrypt A H ⟨⟨id, client, server⟩, keylog⟩ =
        Ciphered.decrypt A H ⟨⟨id', server, client⟩, keylog⟩ ↔
      tlsDecryptFlow A H client server (KeyMap.keyLog keylog) =
        tlsDecryptFlow A H server client (KeyMap.keyLog keylog) := by
  constructor
  · intro hsame
    obtain ⟨w, hw⟩ := Ciphered.decrypt_total A H ⟨⟨id, client, server⟩, keylog⟩
    have hfirst := ((Ciphered.decrypt_eq A H).mp hw).1
    have hsecond := ((Ciphered.decrypt_eq A H).mp (hsame.symm.trans hw)).1
    exact hfirst.trans hsecond.symm
  · intro hsame
    simp only [Ciphered.decrypt, hsame]

/-- The two captures of an exchange are inspected alike exactly where there is nothing to show. -/
theorem swapped_iff {client server : List UInt8} (h : Exchange client server) (keylog : KeyMap)
    (id id' : UInt64) :
    Shown.parse ⟨id, client, server⟩ = Shown.parse ⟨id', server, client⟩ ∧
        Ciphered.decrypt A H ⟨⟨id, client, server⟩, keylog⟩ =
          Ciphered.decrypt A H ⟨⟨id', server, client⟩, keylog⟩ ↔
      Silent client server := by
  rw [parse_swap_iff h, decrypt_swap_iff, tlsDecryptFlow_swap A H _ h.hellos]
  constructor
  · rintro ⟨⟨hrequests, hresponses⟩, hhellos⟩
    exact ⟨hrequests, hresponses, hhellos⟩
  · rintro ⟨hrequests, hresponses, hhellos⟩
    exact ⟨⟨hrequests, hresponses⟩, hhellos⟩

/-- What a capture shows as outbound is what its own end sent. -/
theorem inspect_captured {cap : Nat} (hcap : cap ≤ maxPayload) {here : Party}
    {streams : Party → List UInt8} {id : UInt64} {m : KndModel}
    (h : Captured utf8ToUtf16 utf16ToUtf8 cap here streams id m) (keylog : KeyMap) :
    let x : Shown := ⟨id, (streams here).take cap, (streams here.other).take cap⟩
    inspect A H m id keylog =
      x.parse.bind fun v => (Ciphered.decrypt A H ⟨x, keylog⟩).map fun w => (v, w) := by
  intro x
  obtain ⟨f, hf, hid, hpayload⟩ := h.payload
  have hout : here.dir here = .outbound := if_pos rfl
  have hin : here.dir here.other = .inbound := by cases here <;> rfl
  have hshown : f.shown = x := by
    rw [KndFlow.shown, hid, ← hout, ← hin, hpayload, hpayload]
  have hsmall : x.Small := by
    simp only [x, Shown.Small, List.length_take]
    omega
  rw [inspect_eq A H hf (hshown ▸ hsmall), hshown]

/-- Two captures of a connection, one at each end. -/
theorem inspect_both_iff {cap : Nat} (hcap : cap ≤ maxPayload) {streams : Party → List UInt8}
    {id id' : UInt64} {m m' : KndModel}
    (hout : Captured utf8ToUtf16 utf16ToUtf8 cap .client streams id m)
    (hin : Captured utf8ToUtf16 utf16ToUtf8 cap .server streams id' m') (keylog : KeyMap) :
    let client := (streams .client).take cap
    let server := (streams .server).take cap
    inspect A H m id keylog = inspect A H m' id' keylog ↔
      Shown.parse ⟨id, client, server⟩ = Shown.parse ⟨id', server, client⟩ ∧
        Ciphered.decrypt A H ⟨⟨id, client, server⟩, keylog⟩ =
          Ciphered.decrypt A H ⟨⟨id', server, client⟩, keylog⟩ := by
  intro client server
  obtain ⟨v, hv⟩ := Shown.parse_total ⟨id, client, server⟩
  obtain ⟨v', hv'⟩ := Shown.parse_total ⟨id', server, client⟩
  obtain ⟨w, hw⟩ := Ciphered.decrypt_total A H ⟨⟨id, client, server⟩, keylog⟩
  obtain ⟨w', hw'⟩ := Ciphered.decrypt_total A H ⟨⟨id', server, client⟩, keylog⟩
  have hfirst : inspect A H m id keylog = some (v, w) := by
    rw [inspect_captured A H hcap hout, Party.other, hv, hw]
    rfl
  have hsecond : inspect A H m' id' keylog = some (v', w') := by
    rw [inspect_captured A H hcap hin, Party.other, hv', hw']
    rfl
  rw [hfirst, hsecond, hv, hv', hw, hw']
  simp only [Option.some.injEq, Prod.mk.injEq]

end

/-- Over every exchange, captured at its client and at its server among anything else: the Inspector
obtains the same messages and the same decryption exactly where neither capture has anything to
show. -/
theorem inspect_symmetric_iff (A : Gcm) (H : Hmac) (keylog : KeyMap) {mb : Int}
    {streams : Party → List UInt8} {id id' : UInt64} {m m' : KndModel}
    (hx : Exchange ((streams .client).take (capBytes mb)) ((streams .server).take (capBytes mb)))
    (hout : Captured utf8ToUtf16 utf16ToUtf8 (capBytes mb) .client streams id m)
    (hin : Captured utf8ToUtf16 utf16ToUtf8 (capBytes mb) .server streams id' m') :
    inspect A H m id keylog = inspect A H m' id' keylog ↔
      Silent ((streams .client).take (capBytes mb)) ((streams .server).take (capBytes mb)) := by
  have hboth := inspect_both_iff A H (capBytes_le mb) hout hin keylog
  exact hboth.trans (swapped_iff A H hx keylog id id')

/-! ### A request and its response -/

/-- What the driver emits for a connection that is not closed yet. -/
def aloneCalls (here : Party) (f : FlowFields) (next : UInt64) (x : List Segment) :
    List (Emission × Nat) :=
  (captureCalls here f next x false).map fun src => (.driver src (src.call 0).recLen 0 0, 0)

theorem mem_captureCalls {here : Party} {f : FlowFields} {next : UInt64} {x : List Segment}
    {src : Source} (h : src ∈ captureCalls here f next x false) :
    src.Chunk ∧ src.record.flowId = (openPayload f next).flowId := by
  rcases List.mem_cons.mp h with rfl | h
  · exact ⟨trivial, rfl⟩
  · rw [if_neg Bool.false_ne_true, List.append_nil] at h
    obtain ⟨s, -, h⟩ := List.mem_flatMap.mp h
    obtain ⟨chunk, hchunk, rfl⟩ := List.mem_map.mp h
    refine ⟨mem_chunkLoop hchunk, ?_⟩
    rw [indication_stream]
    rfl

theorem aloneCalls_ok {here : Party} {f : FlowFields} {next : UInt64} {x : List Segment} :
    ∀ e ∈ aloneCalls here f next x, e.1.Ok := by
  intro e he
  obtain ⟨src, hsrc, rfl⟩ := List.mem_map.mp he
  exact ⟨(mem_captureCalls hsrc).1, Nat.le_refl _, Nat.mod_lt _ (Nat.two_pow_pos 32), by decide⟩

/-- All that is emitted is about the connection. -/
theorem aloneCalls_own (utf8ToUtf16 : List UInt8 → List UInt16) (here : Party) (f : FlowFields)
    (next : UInt64) (x : List Segment) :
    (recordsOf utf8ToUtf16 (aloneCalls here f next x)).filter
        (fun r => r.flowId = (openPayload f next).flowId) =
      (captureCalls here f next x false).map Source.record := by
  have hrecords : recordsOf utf8ToUtf16 (aloneCalls here f next x) =
      (captureCalls here f next x false).map Source.record := by
    simp only [aloneCalls, recordsOf, List.map_map]
    rfl
  rw [hrecords]
  apply List.filter_eq_self.mpr
  intro r hr
  obtain ⟨src, hsrc, rfl⟩ := List.mem_map.mp hr
  exact decide_eq_true (mem_captureCalls hsrc).2

/-- A connection is captured where the driver emits nothing else. -/
theorem captured_calls (utf8ToUtf16 : List UInt8 → List UInt16)
    (utf16ToUtf8 : List UInt16 → List UInt8) (cap packetCap : Nat) (here : Party) (f : FlowFields)
    (next : UInt64) (x : List Segment) :
    Captured utf8ToUtf16 utf16ToUtf8 cap here (fun p => sentBy p x) (openPayload f next).flowId
      (ingestAll utf8ToUtf16 utf16ToUtf8 (KndModel.empty cap packetCap)
        (aloneCalls here f next x)) :=
  .intro aloneCalls_ok (aloneCalls_own utf8ToUtf16 here f next x) fun _ => rfl

def loopbackFlow : FlowFields where
  addrs := .v4 0x7F000001 0x7F000001
  localPort := 50000
  remotePort := 80
  protocol := kndProtoTcp
  inbound := false
  flowHandle := some 7
  processId := some 4
  processPath := none

def pageExchange : List Segment :=
  [⟨.client, text "GET / HTTP/1.1\r\n\r\n"⟩, ⟨.server, text "HTTP/1.1 200 OK\r\n\r\n"⟩]

/-- Both ends say who they are, in no protocol that is shown. -/
def bannerExchange : List Segment :=
  [⟨.server, text "SSH-2.0-OpenSSH_9.6\r\n"⟩, ⟨.client, text "SSH-2.0-PuTTY\r\n"⟩]

/-- The requests of the server's capture are looked for in the response. Of the banners neither
capture shows anything. -/
theorem inspect_symmetric_iff_page : ∃ m m' b b',
    Captured asciiToUtf16 asciiToUtf8 (capBytes 4) .client (fun p => sentBy p pageExchange) 7 m ∧
    Captured asciiToUtf16 asciiToUtf8 (capBytes 4) .server (fun p => sentBy p pageExchange) 7 m' ∧
    inspect sumGcm cutHmac m 7 ∅ ≠ inspect sumGcm cutHmac m' 7 ∅ ∧
    Captured asciiToUtf16 asciiToUtf8 (capBytes 4) .client (fun p => sentBy p bannerExchange) 7 b ∧
    Captured asciiToUtf16 asciiToUtf8 (capBytes 4) .server (fun p => sentBy p bannerExchange) 7 b' ∧
    inspect sumGcm cutHmac b 7 ∅ = inspect sumGcm cutHmac b' 7 ∅ := by
  have hm := captured_calls asciiToUtf16 asciiToUtf8 (capBytes 4) 0 .client loopbackFlow 0
    pageExchange
  have hm' := captured_calls asciiToUtf16 asciiToUtf8 (capBytes 4) 0 .server loopbackFlow 0
    pageExchange
  have hb := captured_calls asciiToUtf16 asciiToUtf8 (capBytes 4) 0 .client loopbackFlow 0
    bannerExchange
  have hb' := captured_calls asciiToUtf16 asciiToUtf8 (capBytes 4) 0 .server loopbackFlow 0
    bannerExchange
  refine ⟨_, _, _, _, hm, hm', fun hsame => ?_, hb, hb', ?_⟩
  · have hx : Exchange ((sentBy .client pageExchange).take (capBytes 4))
        ((sentBy .server pageExchange).take (capBytes 4)) := by
      constructor
      case asks => decide +kernel
      case answers =>
        intro _
        decide +kernel
      case hellos => decide +kernel
    have hsilent := (inspect_symmetric_iff sumGcm cutHmac ∅ hx hm hm').mp hsame
    have hresponses := (httpParse_nil_iff _ true).mpr hsilent.responses
    revert hresponses
    decide +kernel
  · have hnone : httpParse ((sentBy .client bannerExchange).take (capBytes 4)) false = some [] ∧
        httpParse ((sentBy .server bannerExchange).take (capBytes 4)) false = some [] ∧
        httpParse ((sentBy .server bannerExchange).take (capBytes 4)) true = some [] := by
      decide +kernel
    have hclient := (httpParse_nil_iff _ false).mp hnone.1
    have hserver := (httpParse_nil_iff _ false).mp hnone.2.1
    have hx : Exchange ((sentBy .client bannerExchange).take (capBytes 4))
        ((sentBy .server bannerExchange).take (capBytes 4)) := by
      constructor
      case asks => decide +kernel
      case answers => exact fun h => absurd h hserver
      case hellos => decide +kernel
    refine (inspect_symmetric_iff sumGcm cutHmac ∅ hx hb hb').mpr ⟨⟨hclient, hserver⟩,
      (httpParse_nil_iff _ true).mp hnone.2.2, .inl ?_⟩
    decide +kernel

def tlsExchange : List Segment := [⟨.client, clientStream⟩, ⟨.server, serverStream⟩]

/-- The capture of the server decrypts nothing. -/
theorem inspect_not_symmetric : ¬∀ (A : Gcm) (H : Hmac) (utf8ToUtf16 : List UInt8 → List UInt16)
    (utf16ToUtf8 : List UInt16 → List UInt8) (keylog : KeyMap) (mb : Int)
    (streams : Party → List UInt8) (id id' : UInt64) (m m' : KndModel),
    Exchange ((streams .client).take (capBytes mb)) ((streams .server).take (capBytes mb)) →
    Captured utf8ToUtf16 utf16ToUtf8 (capBytes mb) .client streams id m →
    Captured utf8ToUtf16 utf16ToUtf8 (capBytes mb) .server streams id' m' →
    inspect A H m id keylog = inspect A H m' id' keylog := by
  intro hall
  have hm := captured_calls asciiToUtf16 asciiToUtf8 (capBytes 4) 0 .client loopbackFlow 0
    tlsExchange
  have hm' := captured_calls asciiToUtf16 asciiToUtf8 (capBytes 4) 0 .server loopbackFlow 0
    tlsExchange
  have hnone : httpParse ((sentBy .server tlsExchange).take (capBytes 4)) false = some [] := by
    decide +kernel
  have hx : Exchange ((sentBy .client tlsExchange).take (capBytes 4))
      ((sentBy .server tlsExchange).take (capBytes 4)) := by
    constructor
    case asks => decide +kernel
    case answers => exact fun h => absurd h ((httpParse_nil_iff _ false).mp hnone)
    case hellos => decide +kernel
  have hsame := hall sumGcm cutHmac _ _ ∅ 4 _ _ _ _ _ hx hm hm'
  have hboth := (inspect_both_iff sumGcm cutHmac (capBytes_le 4) hm hm' ∅).mp hsame
  have hhellos := ((swapped_iff sumGcm cutHmac hx ∅ _ _).mp hboth).hellos
  revert hhellos
  decide +kernel

end NetDebugger
