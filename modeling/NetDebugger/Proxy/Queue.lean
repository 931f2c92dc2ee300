import NetDebugger.Lib.Pool
import NetDebugger.Proxy.Relay

/-! The queue between the connection threads and the interface.  Each thread runs `handleConn`, which
may fail at every step; `pushRecord` and the swap in `drain` hold the mutex, and are one step each. -/

namespace NetDebugger.Proxy

open Lib

/-! ### One connection -/

/-- The steps of `handleConn` behind the first `recv` and in front of the relay. Each may fail. -/
inductive ConnStep
  | peekHello
  | queryOriginalDest
  | readPreamble
  | parseConnect
  | certForHost
  | parseLeaf
  | parseKey
  | serverDefaults
  | ownCert
  | serverSetup
  | serverHandshake
  | netConnect
  | clientDefaults
  | clientSetup
  | clientHandshake
deriving DecidableEq

/-- The steps for a client that begins with a TLS record, and for any other. -/
def connSteps (tls : Bool) : List ConnStep :=
  (if tls then [.peekHello, .queryOriginalDest] else [.readPreamble, .parseConnect]) ++
    [.certForHost, .parseLeaf, .parseKey, .serverDefaults, .ownCert, .serverSetup, .serverHandshake,
      .netConnect, .clientDefaults, .clientSetup, .clientHandshake]

/-- Where `handleConn` is. `closing` is behind the `do` block, with the flag `opened`. -/
inductive HandlerPhase
  | peeking
  | setup (todo : List ConnStep)
  | relaying (r : Relay)
  | closing (opened : Bool)
  | finished (opened : Bool)

structure Handler where
  flow : UInt64
  phase : HandlerPhase

inductive HandlerEvent
  | peeked (tls : Bool)
  | passed
  | broke
  | opens (certHost : List UInt8) (port : UInt16) (now : UInt64)
  | relays (e : RelayEvent)
  | closes (now : UInt64)

section

variable (utf8ToUtf16 : List UInt8 → List UInt16)

/-- A step of a connection, and the records that it pushes. -/
def Handler.step (h : Handler) (e : HandlerEvent) : Option (Handler × List (List UInt8)) :=
  match h.phase, e with
  | .peeking, .peeked tls => some ({ h with phase := .setup (connSteps tls) }, [])
  | .peeking, .broke => some ({ h with phase := .closing false }, [])
  | .setup (_ :: todo), .passed => some ({ h with phase := .setup todo }, [])
  | .setup (_ :: _), .broke => some ({ h with phase := .closing false }, [])
  | .setup [], .opens certHost port now =>
    some ({ h with phase := .relaying .start },
      [buildConnOpen utf8ToUtf16 h.flow certHost port now])
  | .relaying r, .relays e =>
    (r.step h.flow e).map fun t =>
      ({ h with phase := if t.phase = .ended then .closing true else .relaying t },
        t.transcript.pushed.drop r.transcript.pushed.length)
  | .closing opened, .closes now =>
    some ({ h with phase := .finished opened },
      if opened then [buildConnClose h.flow now] else [])
  | _, _ => none

/-! ### The proxy -/

/-- The threads with what they have pushed, the queue, and the batches that were drained. -/
structure Mitm where
  nextFlow : UInt64
  threads : Pool Handler (List UInt8)
  queue : List (List UInt8)
  batches : List (List (List UInt8))

inductive MitmEvent
  | accepted
  | thread (i : Nat) (e : HandlerEvent)
  | drain

def Mitm.start : Mitm := ⟨0, .empty, [], []⟩

/-- A thread takes its flow id from the counter when it starts. -/
def Mitm.step (s : Mitm) : MitmEvent → Option Mitm
  | .accepted =>
    some { s with
      nextFlow := s.nextFlow + 1
      threads := s.threads.enter ⟨2 ^ 63 ||| s.nextFlow, .peeking⟩ }
  | .thread i e => do
    let m ← s.threads.members[i]?
    let (h, out) ← m.state.step utf8ToUtf16 e
    some { s with threads := s.threads.act i h out, queue := s.queue ++ out }
  | .drain => some { s with queue := [], batches := s.batches ++ [s.queue] }

/-! ### What the queue is for -/

/-- The flow that a record is about. -/
def recordFlow (record : List UInt8) : UInt64 :=
  let body := fun i => pointer record (sizeofKndRecord + i)
  if (KndRecord.read (pointer record)).type = kndRecData then (KndDataPayload.read body).flowId
  else (KndConnPayload.read body).flowId

def ofFlow (flow : UInt64) (records : List (List UInt8)) : List (List UInt8) :=
  records.filter (recordFlow · = flow)

/-- A DATA record as the relay of the connection pushes them. -/
def IsData (flow : UInt64) (record : List UInt8) : Prop :=
  ∃ dir bytes now, bytes.length ≤ relaySize ∧ record = buildData flow (Dir.code dir) bytes now

/-- The life of a connection in its records: nothing, or CONN_OPEN, the DATA records, and CONN_CLOSE
once the handler has ended. -/
inductive Lived (flow : UInt64) : HandlerPhase → List (List UInt8) → Prop
  | peeking : Lived flow .peeking []
  | setup {todo : List ConnStep} : Lived flow (.setup todo) []
  | broken : Lived flow (.closing false) []
  | ended : Lived flow (.finished false) []
  | relaying {r : Relay} (certHost : List UInt8) (port : UInt16) (now : UInt64)
      (hdata : ∀ record ∈ r.transcript.pushed, IsData flow record) :
      Lived flow (.relaying r)
        (buildConnOpen utf8ToUtf16 flow certHost port now :: r.transcript.pushed)
  | closing {data : List (List UInt8)} (certHost : List UInt8) (port : UInt16) (now : UInt64)
      (hdata : ∀ record ∈ data, IsData flow record) :
      Lived flow (.closing true) (buildConnOpen utf8ToUtf16 flow certHost port now :: data)
  | closed {data : List (List UInt8)} (certHost : List UInt8) (port : UInt16) (now now' : UInt64)
      (hdata : ∀ record ∈ data, IsData flow record) :
      Lived flow (.finished true)
        (buildConnOpen utf8ToUtf16 flow certHost port now :: data ++ [buildConnClose flow now'])

/-- The drained batches are the pushes, in their order, and each flow in them is the life of one
connection. -/
structure Mitm.Orderly (s : Mitm) : Prop where
  inOrder : s.batches.flatten <+: s.threads.log
  drained : ∀ t, s.step utf8ToUtf16 .drain = some t → t.batches.flatten = s.threads.log
  lives : ∀ m ∈ s.threads.members,
    Lived utf8ToUtf16 m.state.flow m.state.phase (ofFlow m.state.flow s.threads.log)
  others : ∀ flow, (∀ m ∈ s.threads.members, m.state.flow ≠ flow) →
    ofFlow flow s.threads.log = []
  distinct : (s.threads.members.map fun m => m.state.flow).Nodup

end

/-! ### Flow ids -/

/-- The flow id of the thread `i`. -/
def flowId (i : Nat) : UInt64 := 2 ^ 63 ||| UInt64.ofNat i

theorem flowId_toNat {i : Nat} (h : i < 2 ^ 63) : (flowId i).toNat = 2 ^ 63 + i := by
  have htop : (2 ^ 63 : UInt64).toNat = 2 ^ 63 := by decide +kernel
  have hor := Nat.two_pow_add_eq_or_of_lt h 1
  rw [Nat.mul_one] at hor
  rw [flowId, UInt64.toNat_or, UInt64.toNat_ofNat', Nat.mod_eq_of_lt (by omega), htop, hor]

theorem flowId_inj {i j : Nat} (hi : i < 2 ^ 63) (hj : j < 2 ^ 63) (h : flowId i = flowId j) :
    i = j := by
  have heq := congrArg UInt64.toNat h
  rw [flowId_toNat hi, flowId_toNat hj] at heq
  omega

/-! ### Records tell their flow -/

theorem recordFlow_open (utf8ToUtf16 : List UInt8 → List UInt16) (flow : UInt64)
    (certHost : List UInt8) (port : UInt16) (now : UInt64) :
    recordFlow (buildConnOpen utf8ToUtf16 flow certHost port now) = flow := by
  obtain ⟨htype, hpayload⟩ := buildConnOpen_at utf8ToUtf16 flow certHost port now
  unfold recordFlow
  simp only [htype, hpayload]
  exact if_neg (by decide)

theorem recordFlow_close (flow now : UInt64) : recordFlow (buildConnClose flow now) = flow := by
  obtain ⟨htype, hpayload⟩ := buildConnClose_at flow now
  unfold recordFlow
  simp only [htype, hpayload]
  exact if_neg (by decide)

theorem IsData.recordFlow_eq {flow : UInt64} {record : List UInt8} (h : IsData flow record) :
    recordFlow record = flow := by
  obtain ⟨dir, bytes, now, hlen, rfl⟩ := h
  obtain ⟨htype, hpayload, -, -⟩ := buildData_at flow (Dir.code dir) now hlen
  unfold recordFlow
  simp only [htype, hpayload, if_true]
  rfl

/-! ### A step of a connection -/

/-- A step of the relay pushes DATA records at most. -/
theorem Relay.Takes.pushed {flow : UInt64} {s t : Relay} {e : RelayEvent} (h : s.Takes flow e t) :
    ∃ new, t.transcript.pushed = s.transcript.pushed ++ new ∧ ∀ record ∈ new, IsData flow record := by
  cases h with
  | check => exact ⟨[], (List.append_nil _).symm, by simp⟩
  | readWant => exact ⟨[], by simp, by simp⟩
  | readFailed => exact ⟨[], by simp, by simp⟩
  | @readData dir bytes now _ _ hlen =>
    refine ⟨[buildData flow (Dir.code dir) bytes now], rfl, ?_⟩
    simpa using ⟨dir, bytes, now, hlen, rfl⟩
  | writeWant => exact ⟨[], (List.append_nil _).symm, by simp⟩
  | writeFailed => exact ⟨[], (List.append_nil _).symm, by simp⟩
  | wrote => exact ⟨[], (List.append_nil _).symm, by simp⟩

/-- The handler goes on with its life, and pushes records of its own flow. -/
structure Handler.Goes (utf8ToUtf16 : List UInt8 → List UInt16) (h h' : Handler)
    (written out : List (List UInt8)) : Prop where
  flow : h'.flow = h.flow
  lived : Lived utf8ToUtf16 h.flow h'.phase (written ++ out)
  own : ∀ record ∈ out, recordFlow record = h.flow

section

variable {utf8ToUtf16 : List UInt8 → List UInt16}

theorem Handler.step_goes {h h' : Handler} {e : HandlerEvent} {written out : List (List UInt8)}
    (hlived : Lived utf8ToUtf16 h.flow h.phase written)
    (hstep : h.step utf8ToUtf16 e = some (h', out)) : h.Goes utf8ToUtf16 h' written out := by
  obtain ⟨flow, phase⟩ := h
  unfold Handler.step at hstep
  dsimp only at hstep hlived
  split at hstep
  case h_1 =>
    obtain ⟨rfl, rfl⟩ := Prod.mk.inj (Option.some.inj hstep)
    cases hlived
    exact ⟨rfl, .setup, by simp⟩
  case h_2 =>
    obtain ⟨rfl, rfl⟩ := Prod.mk.inj (Option.some.inj hstep)
    cases hlived
    exact ⟨rfl, .broken, by simp⟩
  case h_3 =>
    obtain ⟨rfl, rfl⟩ := Prod.mk.inj (Option.some.inj hstep)
    cases hlived
    exact ⟨rfl, .setup, by simp⟩
  case h_4 =>
    obtain ⟨rfl, rfl⟩ := Prod.mk.inj (Option.some.inj hstep)
    cases hlived
    exact ⟨rfl, .broken, by simp⟩
  case h_5 certHost port now =>
    obtain ⟨rfl, rfl⟩ := Prod.mk.inj (Option.some.inj hstep)
    cases hlived
    refine ⟨rfl, .relaying certHost port now (by simp [Relay.start]), ?_⟩
    simpa using recordFlow_open utf8ToUtf16 flow certHost port now
  case h_6 r e =>
    obtain ⟨t, ht, heq⟩ := Option.map_eq_some_iff.mp hstep
    obtain ⟨rfl, rfl⟩ := Prod.mk.inj heq
    obtain ⟨new, hpushed, hnew⟩ := (Relay.step_takes ht).pushed
    rw [hpushed, List.drop_left]
    cases hlived with
    | relaying certHost port now hdata =>
      have hall : ∀ record ∈ t.transcript.pushed, IsData flow record := by
        intro record hrecord
        rw [hpushed] at hrecord
        exact (List.mem_append.mp hrecord).elim (hdata record) (hnew record)
      refine ⟨rfl, ?_, fun record hrecord => (hnew record hrecord).recordFlow_eq⟩
      rw [List.cons_append, ← hpushed]
      dsimp only
      split
      · exact .closing certHost port now hall
      · exact .relaying certHost port now hall
  case h_7 opened now' =>
    obtain ⟨rfl, rfl⟩ := Prod.mk.inj (Option.some.inj hstep)
    cases hlived with
    | broken => exact ⟨rfl, .ended, by simp⟩
    | closing certHost port now hdata =>
      refine ⟨rfl, .closed certHost port now now' hdata, ?_⟩
      simpa using recordFlow_close flow now'
  case h_8 => cases hstep

/-! ### Runs -/

/-- What holds while there are fewer than 2^63 threads. -/
structure Mitm.Wf (utf8ToUtf16 : List UInt8 → List UInt16) (s : Mitm) : Prop where
  nextFlow : s.nextFlow = UInt64.ofNat s.threads.members.length
  queue : s.batches.flatten ++ s.queue = s.threads.log
  handlers : s.threads.Each fun i m =>
    m.state.flow = flowId i ∧ Lived utf8ToUtf16 m.state.flow m.state.phase m.written
  separated : s.threads.Separated recordFlow flowId

theorem start_mitm_wf : Mitm.start.Wf utf8ToUtf16 where
  nextFlow := rfl
  queue := rfl
  handlers := Pool.each_empty _
  separated := Pool.separated_empty _ _

theorem Mitm.Wf.step {s t : Mitm} {e : MitmEvent} (hs : s.Wf utf8ToUtf16)
    (hfew : t.threads.members.length < 2 ^ 63) (h : s.step utf8ToUtf16 e = some t) :
    t.Wf utf8ToUtf16 := by
  cases e with
  | accepted =>
    obtain rfl := Option.some.inj h
    have hlen : (s.threads.enter ⟨2 ^ 63 ||| s.nextFlow, .peeking⟩).members.length =
        s.threads.members.length + 1 := by simp [Pool.enter]
    have hfew' : s.threads.members.length + 1 < 2 ^ 63 := hlen ▸ hfew
    constructor
    case nextFlow =>
      show s.nextFlow + 1 = UInt64.ofNat _
      rw [hlen, hs.nextFlow, UInt64.ofNat_add]
      rfl
    case queue => exact hs.queue
    case handlers =>
      refine hs.handlers.enter ⟨?_, .peeking⟩
      show 2 ^ 63 ||| s.nextFlow = _
      rw [hs.nextFlow, flowId]
    case separated =>
      refine hs.separated.enter _ fun i hi heq => ?_
      have := flowId_inj (by omega) (by omega) heq
      omega
  | thread i e =>
    obtain ⟨m, hm, hrest⟩ := Option.bind_eq_some_iff.mp h
    obtain ⟨⟨h', out⟩, hstep, heq⟩ := Option.bind_eq_some_iff.mp hrest
    obtain rfl := Option.some.inj heq
    obtain ⟨hflow, hlived⟩ := hs.handlers i m hm
    have hgoes := Handler.step_goes hlived hstep
    have hlen : (s.threads.act i h' out).members.length = s.threads.members.length := by
      simp [Pool.act]
    have hi : i < s.threads.members.length := (List.getElem?_eq_some_iff.mp hm).1
    have hfew' : s.threads.members.length < 2 ^ 63 := hlen ▸ hfew
    constructor
    case nextFlow => exact hs.nextFlow.trans (congrArg _ hlen.symm)
    case queue =>
      show s.batches.flatten ++ (s.queue ++ out) = s.threads.log ++ out
      rw [← List.append_assoc, hs.queue]
    case handlers =>
      refine hs.handlers.act hm ⟨hgoes.flow.trans hflow, ?_⟩
      rw [hgoes.flow]
      exact hgoes.lived
    case separated =>
      refine hs.separated.act hm h' (fun a ha => (hgoes.own a ha).trans hflow) fun j hj hne heq => ?_
      exact hne (flowId_inj (by omega) (by omega) heq)
  | drain =>
    obtain rfl := Option.some.inj h
    refine ⟨hs.nextFlow, ?_, hs.handlers, hs.separated⟩
    show (s.batches ++ [s.queue]).flatten ++ [] = s.threads.log
    rw [List.append_nil, List.flatten_append, List.flatten_singleton, hs.queue]

theorem Mitm.Wf.orderly {s : Mitm} (hs : s.Wf utf8ToUtf16)
    (hfew : s.threads.members.length < 2 ^ 63) : s.Orderly utf8ToUtf16 := by
  constructor
  case inOrder => exact ⟨s.queue, hs.queue⟩
  case drained =>
    intro t ht
    obtain rfl := Option.some.inj ht
    show (s.batches ++ [s.queue]).flatten = _
    rw [List.flatten_append, List.flatten_singleton, hs.queue]
  case lives =>
    intro m hm
    obtain ⟨i, hi⟩ := List.mem_iff_getElem?.mp hm
    obtain ⟨hflow, hlived⟩ := hs.handlers i m hi
    have hown : ofFlow m.state.flow s.threads.log = m.written := by
      rw [hflow]
      exact hs.separated.own i m hi
    rwa [hown]
  case others =>
    intro flow hflow
    refine hs.separated.others flow fun i hi heq => ?_
    have hm := List.getElem?_eq_getElem hi
    exact hflow _ (List.getElem_mem hi) ((hs.handlers i _ hm).1.trans heq)
  case distinct =>
    have hflows : s.threads.members.map (fun m => m.state.flow) =
        (List.range s.threads.members.length).map flowId := by
      refine List.ext_getElem (by simp) fun i h1 h2 => ?_
      rw [List.length_map] at h1
      rw [List.getElem_map, List.getElem_map, List.getElem_range]
      exact (hs.handlers i _ (List.getElem?_eq_getElem h1)).1
    rw [hflows]
    refine List.Nodup.map_on (fun i hi j hj heq => ?_) List.nodup_range
    rw [List.mem_range] at hi hj
    exact flowId_inj (by omega) (by omega) heq

theorem Mitm.members_le {s t : Mitm} {e : MitmEvent} (h : s.step utf8ToUtf16 e = some t) :
    s.threads.members.length ≤ t.threads.members.length := by
  cases e with
  | accepted =>
    obtain rfl := Option.some.inj h
    simp [Pool.enter]
  | thread i e =>
    obtain ⟨m, -, hrest⟩ := Option.bind_eq_some_iff.mp h
    obtain ⟨⟨h', out⟩, -, heq⟩ := Option.bind_eq_some_iff.mp hrest
    obtain rfl := Option.some.inj heq
    simp [Pool.act]
  | drain =>
    obtain rfl := Option.some.inj h
    exact Nat.le_refl _

/-- Whatever the threads and the interface do in whatever order, the queue hands over each
connection's life once and in order. -/
theorem queue_orderly {es : List MitmEvent} {t : Mitm}
    (hrun : runEvents (Mitm.step utf8ToUtf16) .start es = some t)
    (hfew : t.threads.members.length < 2 ^ 63) : t.Orderly utf8ToUtf16 := by
  have hstep (s : Mitm) (e : MitmEvent) (t : Mitm) (_ : True)
      (hs : s.threads.members.length < 2 ^ 63 → s.Wf utf8ToUtf16)
      (h : s.step utf8ToUtf16 e = some t) (hfew : t.threads.members.length < 2 ^ 63) :
      t.Wf utf8ToUtf16 :=
    (hs (Nat.lt_of_le_of_lt (Mitm.members_le h) hfew)).step hfew h
  have hwf := runEvents_invariant (fun _ => True) hstep (fun _ => start_mitm_wf)
    (fun _ _ => trivial) hrun
  exact (hwf hfew).orderly hfew

end

/-- One connection breaks off, while another one is relayed and drained. -/
def twoConnections : List MitmEvent :=
  [.accepted, .accepted, .thread 1 (.peeked true)] ++ List.replicate 13 (.thread 1 .passed) ++
    [.thread 0 (.peeked false), .thread 1 (.opens (text "a.io") 443 0), .thread 0 .broke, .drain,
      .thread 1 (.relays (.check true)), .thread 1 (.relays (.read (.data (text "GET")) 1)),
      .thread 0 (.closes 2), .thread 1 (.relays (.write .failed)),
      .thread 1 (.relays (.read .want 3)), .thread 1 (.closes 4), .drain]

theorem queue_orderly_two : ∃ t : Mitm,
    runEvents (Mitm.step fun bs => bs.map UInt8.toUInt16) .start twoConnections = some t ∧
    t.threads.log.length = 3 ∧ t.Orderly fun bs => bs.map UInt8.toUInt16 :=
  ⟨_, rfl, rfl, @queue_orderly _ twoConnections _ rfl (by decide +kernel)⟩

end NetDebugger.Proxy
