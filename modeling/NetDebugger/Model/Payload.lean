import NetDebugger.Lib.Capped
import NetDebugger.Lib.Runs
import NetDebugger.Proxy

/-! The stored payload while the cap changes.  Each direction of a flow is a capped buffer, every
data record is pushed under the cap of its time, and the settings may move the cap between any two
records. -/

namespace NetDebugger

open Lib

/-- The record behind the pointer is a data record of the stream. -/
def Feeds (k : Stream) (p : Nat → UInt8) : Prop :=
  let dp := KndDataPayload.read fun i => p (sizeofKndRecord + i)
  (KndRecord.read p).type = kndRecData ∧ (dp.flowId, Dir.of dp.direction) = k

instance (k : Stream) (p : Nat → UInt8) : Decidable (Feeds k p) :=
  inferInstanceAs (Decidable (_ ∧ _))

/-- The bytes that the record carries for the stream. -/
def dataBytes (k : Stream) (p : Nat → UInt8) : List UInt8 :=
  let dp := KndDataPayload.read fun i => p (sizeofKndRecord + i)
  if Feeds k p then
    readBytes (fun i => p (sizeofKndRecord + (sizeofKndDataPayload + i))) 0 dp.dataLength.toNat
  else []

/-- A record that arrives, or a change of the cap. -/
inductive Feed
  | record (p : Nat → UInt8) (now : Nat)
  | payloadCap (bytes : Nat)

section

variable (utf16ToUtf8 : List UInt16 → List UInt8)

def KndModel.feed (m : KndModel) : Feed → Option KndModel
  | .record p now => some (m.ingest utf16ToUtf8 p now)
  | .payloadCap bytes => some { m with payloadCap := bytes }

/-- The model beside the records so far. -/
def fed : KndModel × List (Nat → UInt8) → Feed → Option (KndModel × List (Nat → UInt8)) :=
  withHistory (KndModel.feed utf16ToUtf8) fun past _ e =>
    match e with
    | .record p _ => past ++ [p]
    | .payloadCap _ => past

end

/-- The buffer of a stream. -/
def KndModel.buffer (m : KndModel) (k : Stream) : Capped UInt8 :=
  ⟨(m.flow k.1).payload k.2, (m.flow k.1).truncated k.2⟩

def concatenation (k : Stream) (past : List (Nat → UInt8)) : List UInt8 :=
  past.flatMap (dataBytes k)

/-- Every buffer begins the bytes of its stream, and is marked exactly when it is shorter. -/
def Contiguous (x : KndModel × List (Nat → UInt8)) : Prop :=
  ∀ k, (x.1.buffer k).Faithful (concatenation k x.2)

/-- The record continues the buffer that it goes to. -/
def Prolongs (x : KndModel × List (Nat → UInt8)) : Feed → Prop
  | .record p _ => ∀ k, Feeds k p →
      (x.1.buffer k).Continues x.1.payloadCap (concatenation k x.2) (dataBytes k p)
  | .payloadCap _ => True

/-! ### One record -/

def KndFlow.buffer (f : KndFlow) (d : Dir) : Capped UInt8 := ⟨f.payload d, f.truncated d⟩

theorem KndFlow.onData_buffer (f : KndFlow) (cap : Nat) (rec' : KndRecord) (dp : KndDataPayload)
    (data : Nat → UInt8) (now : Nat) :
    (f.onData cap rec' dp data now).buffer (Dir.of dp.direction) =
      (f.buffer (Dir.of dp.direction)).push cap (readBytes data 0 dp.dataLength.toNat) := by
  have hlen : (readBytes data 0 dp.dataLength.toNat).length = dp.dataLength.toNat :=
    readBytes_length ..
  have hread : ∀ n, readBytes data 0 (min dp.dataLength.toNat n) =
      (readBytes data 0 dp.dataLength.toNat).take n := by
    intro n
    rw [List.take_eq_take_min, hlen, Nat.min_comm n]
    exact (lies_readBytes ..).readBytes_eq (by rw [hlen]; exact Nat.min_le_left ..)
  simp only [KndFlow.onData, KndFlow.buffer, Function.update_self, hread]
  by_cases hroom : (f.payload (Dir.of dp.direction)).length < cap
  · rw [Capped.push_of_room hroom, if_pos hroom, if_pos hroom, List.length_take, hlen,
      Nat.min_comm dp.dataLength.toNat]
  · rw [Capped.push_of_full hroom, if_neg hroom, if_neg hroom]

theorem KndFlow.onData_other (f : KndFlow) (cap : Nat) (rec' : KndRecord) (dp : KndDataPayload)
    (data : Nat → UInt8) (now : Nat) {d : Dir} (h : d ≠ Dir.of dp.direction) :
    (f.onData cap rec' dp data now).buffer d = f.buffer d := by
  simp only [KndFlow.onData, KndFlow.buffer, Function.update_of_ne h]

theorem KndFlow.onClose_buffer (f : KndFlow) (rec' : KndRecord) (cp : KndConnPayload) (d : Dir) :
    (f.onClose rec' cp).buffer d = f.buffer d := rfl

variable {utf16ToUtf8 : List UInt16 → List UInt8}

theorem KndFlow.onOpen_buffer (f : KndFlow) (rec' : KndRecord) (cp : KndConnPayload) (d : Dir) :
    (f.onOpen utf16ToUtf8 rec' cp).buffer d = f.buffer d := rfl

theorem dataBytes_of_not_feeds {k : Stream} {p : Nat → UInt8} (h : ¬Feeds k p) :
    dataBytes k p = [] := if_neg h

theorem Feeds.recordFlow {k : Stream} {p : Nat → UInt8} (h : Feeds k p) :
    NetDebugger.recordFlow p = some k.1 := by
  have hdata : ¬(kndRecData = kndRecConnOpen ∨ kndRecData = kndRecConnClose) := by decide
  have hflow := congrArg Prod.fst h.2
  simp only [NetDebugger.recordFlow, h.1, if_neg hdata, if_true]
  exact congrArg some hflow

/-- A record is pushed to the buffer that it feeds, and leaves the others of its flow alone. -/
theorem KndFlow.on_buffer (f : KndFlow) (cap : Nat) {p : Nat → UInt8} (now : Nat) {id : UInt64}
    (hid : recordFlow p = some id) (d : Dir) :
    (f.on utf16ToUtf8 cap p now).buffer d =
      if Feeds (id, d) p then (f.buffer d).push cap (dataBytes (id, d) p) else f.buffer d := by
  by_cases hdata : (KndRecord.read p).type = kndRecData
  · have hopen : ¬kndRecData = kndRecConnOpen := by decide
    have hclose : ¬kndRecData = kndRecConnClose := by decide
    simp only [KndFlow.on, hdata, if_neg hopen, if_neg hclose, if_true]
    by_cases hd : d = Dir.of (KndDataPayload.read fun i => p (sizeofKndRecord + i)).direction
    · have hflow : (KndDataPayload.read fun i => p (sizeofKndRecord + i)).flowId = id := by
        simpa [recordFlow, hdata, hopen, hclose] using hid
      have hfeeds : Feeds (id, d) p := ⟨hdata, by rw [hflow, hd]⟩
      rw [if_pos hfeeds, dataBytes, if_pos hfeeds, hd]
      exact f.onData_buffer ..
    · rw [if_neg fun h => hd (congrArg Prod.snd h.2).symm]
      exact f.onData_other _ _ _ _ _ hd
  · rw [if_neg fun h => hdata h.1]
    simp only [KndFlow.on, if_neg hdata]
    split
    · exact f.onOpen_buffer ..
    · split
      · exact f.onClose_buffer ..
      · rfl

/-- What a record does to the buffers of the model. -/
theorem KndModel.ingest_buffer {m : KndModel} (hm : m.WellFormed) (p : Nat → UInt8) (now : Nat) :
    (m.ingest utf16ToUtf8 p now).WellFormed ∧
    ∀ k, (m.ingest utf16ToUtf8 p now).buffer k =
      if Feeds k p then (m.buffer k).push m.payloadCap (dataBytes k p) else m.buffer k := by
  cases hflow : recordFlow p with
  | none =>
    have hcounts := m.ingest_other utf16ToUtf8 now hflow
    refine ⟨by rw [hcounts]; exact hm, fun k => ?_⟩
    rw [if_neg fun h => by simp [h.recordFlow] at hflow]
    simp only [KndModel.buffer, KndModel.flow, KndModel.find, hcounts]
  | some id =>
    obtain ⟨hwf, hown, hother⟩ := KndModel.ingest_updated utf16ToUtf8 hm now hflow
    refine ⟨hwf, fun k => ?_⟩
    by_cases hk : k.1 = id
    · subst hk
      -- a new flow differs from the default only in its times
      have hbuffer : m.buffer k = ((m.find k.1).getD (KndFlow.new k.1 now)).buffer k.2 := by
        rw [KndModel.buffer, KndModel.flow]
        cases m.find k.1 <;> rfl
      have hafter : (m.ingest utf16ToUtf8 p now).buffer k =
          (((m.find k.1).getD (KndFlow.new k.1 now)).on utf16ToUtf8 m.payloadCap p now).buffer
            k.2 := by
        rw [KndModel.buffer, KndModel.flow, hown]
        rfl
      rw [hafter, hbuffer]
      exact KndFlow.on_buffer _ _ now hflow k.2
    · rw [if_neg fun h => hk (Option.some.inj (h.recordFlow.symm.trans hflow))]
      simp only [KndModel.buffer, KndModel.flow, hother k.1 hk]

/-! ### Runs -/

theorem contiguous_clear (m : KndModel) : Contiguous (m.clear, []) := fun _ =>
  Capped.faithful_empty

/-- A step keeps the buffers contiguous exactly when it prolongs them. -/
theorem fed_contiguous {x y : KndModel × List (Nat → UInt8)} {e : Feed}
    (h : x.1.WellFormed ∧ Contiguous x) (hstep : fed utf16ToUtf8 x e = some y) :
    (y.1.WellFormed ∧ Contiguous y) ↔ Prolongs x e := by
  obtain ⟨hm, hbuffers⟩ := h
  cases e with
  | payloadCap bytes =>
    obtain rfl := Option.some.inj hstep
    exact iff_of_true ⟨hm, hbuffers⟩ trivial
  | record p now =>
    obtain rfl := Option.some.inj hstep
    obtain ⟨hwf, hbuffer⟩ := @KndModel.ingest_buffer utf16ToUtf8 _ hm p now
    have hconcat : ∀ k, concatenation k (x.2 ++ [p]) = concatenation k x.2 ++ dataBytes k p :=
      fun k => by simp [concatenation]
    have hone : ∀ k, ((x.1.ingest utf16ToUtf8 p now).buffer k).Faithful
        (concatenation k (x.2 ++ [p])) ↔ (Feeds k p →
          (x.1.buffer k).Continues x.1.payloadCap (concatenation k x.2) (dataBytes k p)) := by
      intro k
      rw [hbuffer k, hconcat k]
      by_cases hfeeds : Feeds k p
      · rw [if_pos hfeeds, Capped.push_faithful_iff (hbuffers k)]
        exact ⟨fun h _ => h, fun h => h hfeeds⟩
      · rw [if_neg hfeeds, dataBytes_of_not_feeds hfeeds, List.append_nil]
        exact iff_of_true (hbuffers k) fun h => absurd h hfeeds
    exact ⟨fun h k => (hone k).mp (h.2 k), fun h => ⟨hwf, fun k => (hone k).mpr (h k)⟩⟩

/-- Over every sequence of records and of changes of the cap: all stored payloads are contiguous in
every state exactly when each data record that finds room behind something left out brings the very
bytes that are missing, and no empty one finds a full buffer that misses nothing. -/
theorem contiguous_iff (utf16ToUtf8 : List UInt16 → List UInt8) (m : KndModel) (es : List Feed) :
    (∀ pre x, pre <+: es → runEvents (fed utf16ToUtf8) (m.clear, []) pre = some x →
      Contiguous x) ↔ EachStep (fed utf16ToUtf8) Prolongs (m.clear, []) es := by
  have htotal : ∀ x e, ∃ y, fed utf16ToUtf8 x e = some y := fun x e => by
    cases e <;> exact ⟨_, rfl⟩
  have hwf : ∀ x e y, True → x.1.WellFormed → fed utf16ToUtf8 x e = some y → y.1.WellFormed := by
    intro x e y _ hx hy
    cases e with
    | record p now =>
      obtain rfl := Option.some.inj hy
      exact (KndModel.ingest_buffer hx p now).1
    | payloadCap bytes =>
      obtain rfl := Option.some.inj hy
      exact hx
  have hstart : (m.clear, ([] : List (Nat → UInt8))).1.WellFormed := Indexed.wf_empty
  obtain ⟨y, hrun⟩ := runEvents_total htotal (m.clear, []) es
  rw [← runEvents_invariant_iff (fun x e y => fed_contiguous) ⟨hstart, contiguous_clear m⟩ hrun]
  constructor
  · intro hall pre x hpre hx
    exact ⟨runEvents_invariant _ hwf hstart (fun _ _ => trivial) hx, hall pre x hpre hx⟩
  · exact fun hall pre x hpre hx => (hall pre x hpre hx).2

/-! ### A cap that grows -/

theorem feeds_of_at {dp : KndDataPayload} {bytes : List UInt8} {p : Nat → UInt8}
    (h : (Record.data dp bytes).At p) (k : Stream) :
    (Feeds k p ↔ (dp.flowId, Dir.of dp.direction) = k) ∧
      dataBytes k p = (Record.data dp bytes).bytesFor k := by
  obtain ⟨htype, hread, hlen, hlies⟩ := h
  have hfeeds : Feeds k p ↔ (dp.flowId, Dir.of dp.direction) = k := by
    simp only [Feeds, htype, hread, true_and]
  refine ⟨hfeeds, ?_⟩
  have hbytes : readBytes (fun i => p (sizeofKndRecord + (sizeofKndDataPayload + i))) 0
      dp.dataLength.toNat = bytes := by
    rw [hlies.readBytes_eq (Nat.le_of_eq hlen), hlen, List.take_length]
  simp only [dataBytes, hread, hfeeds, hbytes, Record.bytesFor]

theorem dataBytes_of_at {r : Record} {p : Nat → UInt8} (h : r.At p) (k : Stream) :
    dataBytes k p = r.bytesFor k := by
  cases r with
  | opened cp =>
    refine dataBytes_of_not_feeds fun hfeeds => ?_
    have hdata := h.1.symm.trans hfeeds.1
    contradiction
  | closed cp =>
    refine dataBytes_of_not_feeds fun hfeeds => ?_
    have hdata := h.1.symm.trans hfeeds.1
    contradiction
  | data dp bytes => exact (feeds_of_at h k).2

/-- What the proxy relays of the flow 5. -/
def relayed (data : List UInt8) : Feed :=
  .record (pointer (Proxy.buildData 5 kndDirInbound data 0)) 0

/-- The model after the flow 5 has received `xs`. -/
structure Received (cap : Nat) (xs : List UInt8) (b : Capped UInt8)
    (x : KndModel × List (Nat → UInt8)) : Prop where
  wellFormed : x.1.WellFormed
  payloadCap : x.1.payloadCap = cap
  buffer : x.1.buffer (5, .inbound) = b
  concatenation : concatenation (5, .inbound) x.2 = xs

theorem Received.relay {utf16ToUtf8 : List UInt16 → List UInt8} {cap : Nat} {xs : List UInt8}
    {b : Capped UInt8} {x : KndModel × List (Nat → UInt8)} (h : Received cap xs b x)
    {data : List UInt8} (hdata : data.length ≤ Proxy.relaySize) :
    ∃ y, fed utf16ToUtf8 x (relayed data) = some y ∧
      Received cap (xs ++ data) (b.push cap data) y := by
  have hat := Proxy.buildData_at 5 kndDirInbound 0 hdata
  obtain ⟨hfeeds, hbytes⟩ := feeds_of_at hat (5, .inbound)
  obtain ⟨hwf, hbuffer⟩ := @KndModel.ingest_buffer utf16ToUtf8 _ h.wellFormed
    (pointer (Proxy.buildData 5 kndDirInbound data 0)) 0
  have hstream : ((Proxy.dataPayload 5 kndDirInbound data).flowId,
      Dir.of (Proxy.dataPayload 5 kndDirInbound data).direction) = (5, Dir.inbound) := rfl
  have hmine : dataBytes (5, .inbound) (pointer (Proxy.buildData 5 kndDirInbound data 0)) =
      data := by
    rw [hbytes, Record.bytesFor, if_pos hstream]
  refine ⟨_, rfl, hwf, ?_, ?_, ?_⟩
  · exact (KndModel.ingest_payloadCap ..).trans h.payloadCap
  · rw [hbuffer, if_pos (hfeeds.mpr hstream), h.buffer, h.payloadCap, hmine]
  · show NetDebugger.concatenation (5, .inbound) (x.2 ++ [_]) = xs ++ data
    rw [← h.concatenation]
    simp only [NetDebugger.concatenation, List.flatMap_append, List.flatMap_singleton, hmine]

/-- The flow fills its buffer. -/
theorem received_run (utf16ToUtf8 : List UInt16 → List UInt8) (m : KndModel) {cap : Nat}
    {bs : List UInt8} (hbs : 0 < bs.length) (hrelay : bs.length ≤ Proxy.relaySize) {n : Nat}
    (hn : n * bs.length ≤ cap) :
    ∃ x, runEvents (fed utf16ToUtf8) (m.clear, [])
        (.payloadCap cap :: List.replicate n (relayed bs)) = some x ∧
      Received cap (List.replicate n bs).flatten ⟨(List.replicate n bs).flatten, false⟩ x := by
  induction n with
  | zero => exact ⟨_, rfl, Indexed.wf_empty, rfl, rfl, rfl⟩
  | succ n ih =>
    rw [Nat.succ_mul] at hn
    obtain ⟨x, hrun, hx⟩ := ih (by omega)
    obtain ⟨y, hstep, hy⟩ := @Received.relay utf16ToUtf8 _ _ _ _ hx _ hrelay
    have hlen : (List.replicate n bs).flatten.length = n * bs.length := by simp
    have hsnoc : (List.replicate (n + 1) bs).flatten = (List.replicate n bs).flatten ++ bs := by
      rw [List.replicate_succ', List.flatten_append, List.flatten_singleton]
    rw [Capped.push_of_fits (by rw [hlen]; omega) (by rw [hlen]; exact hn), ← hsnoc] at hy
    refine ⟨y, ?_, hy⟩
    rw [List.replicate_succ', ← List.cons_append]
    exact runEvents_append.mpr ⟨x, hrun, runEvents_cons.mpr ⟨y, hstep, rfl⟩⟩

theorem Received.raise {cap : Nat} {xs : List UInt8} {b : Capped UInt8}
    {x : KndModel × List (Nat → UInt8)} (h : Received cap xs b x) (bytes : Nat) :
    Received bytes xs b ({ x.1 with payloadCap := bytes }, x.2) :=
  ⟨h.wellFormed, rfl, h.buffer, h.concatenation⟩

/-- The cap of 1 MiB is reached and one byte is left out; the cap is raised to 2 MiB, and the next
byte follows the gap. -/
theorem contiguous_not_always :
    ¬∀ (utf16ToUtf8 : List UInt16 → List UInt8) (m : KndModel) (es pre : List Feed)
      (x : KndModel × List (Nat → UInt8)), pre <+: es →
      runEvents (fed utf16ToUtf8) (m.clear, []) pre = some x → Contiguous x := by
  intro hall
  obtain ⟨bs, hbs, hrelay⟩ : ∃ bs : List UInt8, bs.length = 16384 ∧ bs.length ≤ Proxy.relaySize :=
    ⟨List.replicate 16384 0, List.length_replicate, Nat.le_of_eq List.length_replicate⟩
  have hfits : 64 * bs.length ≤ 2 ^ 20 := by omega
  obtain ⟨x, hrun, hx⟩ := received_run (fun _ => []) (KndModel.empty 0 0) (by omega) hrelay hfits
  have hlen : (List.replicate 64 bs).flatten.length = 2 ^ 20 := by simp [hbs]
  generalize (List.replicate 64 bs).flatten = xs at hx hlen
  have hone : ∀ b : UInt8, [b].length ≤ Proxy.relaySize := fun b => Nat.one_le_ofNat
  obtain ⟨y, hlost, hy⟩ := hx.relay (hone 1)
  have hfull : ¬xs.length < 2 ^ 20 := by omega
  rw [Capped.push_of_full hfull] at hy
  obtain ⟨z, hlast, hz⟩ := (hy.raise (2 * 2 ^ 20)).relay (hone 2)
  have hroom : xs.length < 2 * 2 ^ 20 := by omega
  rw [Capped.push_of_fits hroom (show xs.length + 1 ≤ 2 * 2 ^ 20 by omega)] at hz
  have hgap : xs ++ [2] <+: xs ++ [1] ++ [2] := by
    have hrest : runEvents (fed fun _ => []) x
        [relayed [1], .payloadCap (2 * 2 ^ 20), relayed [2]] = some z :=
      runEvents_cons.mpr ⟨y, hlost,
        runEvents_cons.mpr ⟨_, rfl, runEvents_cons.mpr ⟨z, hlast, rfl⟩⟩⟩
    have hcontiguous := hall (fun _ => []) (KndModel.empty 0 0) _ _ z (List.prefix_refl _)
      (runEvents_append.mpr ⟨x, hrun, hrest⟩)
    have hfront := (hcontiguous (5, .inbound)).front
    rw [hz.buffer, hz.concatenation] at hfront
    exact hfront
  rw [List.append_assoc, List.prefix_append_right_inj] at hgap
  revert hgap
  decide

end NetDebugger
