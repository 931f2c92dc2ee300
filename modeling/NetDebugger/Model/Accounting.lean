import Mathlib.Algebra.BigOperators.Group.Finset.Basic
import Mathlib.Algebra.Order.BigOperators.Group.List
import NetDebugger.Pipeline
import NetDebugger.Proxy

/-! The byte counters of the model against the data records, over everything that the driver and
the proxy emit.  The totals only grow; a flow's own counters are replaced by those of its close
record, and both producers leave these zero. -/

namespace NetDebugger.Accounting

open Lib NetDebugger.Ring Pipeline

/-- A record of one of the producers. A record of the driver has the length and the sequence
number that `KndRingWrite` gave it. -/
inductive Emission
  | driver (src : Source) (recLen sequence : Nat) (timestamp : UInt64)
  | buildConnOpen (flow : UInt64) (host : List UInt8) (port : UInt16) (timestamp : UInt64)
  | buildData (flow : UInt64) (d : Dir) (data : List UInt8) (timestamp : UInt64)
  | buildConnClose (flow timestamp : UInt64)

/-- What the producers keep to: chunks are those of the driver's loop, relayed data is what one
read of the proxy returned. -/
def Emission.Ok : Emission → Prop
  | .driver src recLen sequence timestamp => src.Chunk ∧
      (src.call timestamp).recLen ≤ recLen ∧ recLen < 2 ^ 32 ∧ sequence < 2 ^ 64
  | .buildData _ _ data _ => 0 < data.length ∧ data.length ≤ Proxy.relaySize
  | _ => True

section

variable (utf8ToUtf16 : List UInt8 → List UInt16)

def Emission.bytes : Emission → List UInt8
  | .driver src recLen sequence timestamp => recordBytes (src.call timestamp) recLen sequence
  | .buildConnOpen flow host port timestamp =>
    Proxy.buildConnOpen utf8ToUtf16 flow host port timestamp
  | .buildData flow d data timestamp => Proxy.buildData flow (dirByte d) data timestamp
  | .buildConnClose flow timestamp => Proxy.buildConnClose flow timestamp

def Emission.record : Emission → Record
  | .driver src _ _ _ => src.record
  | .buildConnOpen flow host port _ => .opened (Proxy.openPayload utf8ToUtf16 flow host port)
  | .buildData flow d data _ => .data (Proxy.dataPayload flow (dirByte d) data) data
  | .buildConnClose flow _ => .closed (Capture.closePayload flow)

/-- The records of the emissions, ingested one after the other at the given times. -/
def ingestAll (utf16ToUtf8 : List UInt16 → List UInt8) (m : KndModel) (es : List (Emission × Nat)) :
    KndModel :=
  es.foldl (fun m e => m.ingest utf16ToUtf8 (pointer (e.1.bytes utf8ToUtf16)) e.2) m

def recordsOf (es : List (Emission × Nat)) : List Record := es.map fun e => e.1.record utf8ToUtf16

end

/-- The length that a data record states for the stream. -/
def dataLength (k : Stream) : Record → Nat
  | .data dp _ => if (dp.flowId, Dir.of dp.direction) = k then dp.dataLength.toNat else 0
  | _ => 0

/-- The sum of `dataLength` over the data records of the stream. -/
def sumLength (k : Stream) (rs : List Record) : Nat := (rs.map (dataLength k)).sum

/-- The sum of `dataLength` over all data records in the direction. -/
def totalLength (d : Dir) (rs : List Record) : Nat :=
  (rs.map fun r => dataLength (r.flowId, d) r).sum

def statsBytes (s : KndModelStats) : Dir → UInt64
  | .outbound => s.outBytes
  | .inbound => s.inBytes

/-- The counters of flows and totals are the sums over the records. -/
structure Accounted (m : KndModel) (rs : List Record) : Prop where
  flows : ∀ f fl, m.find f = some fl → ∀ d, (fl.bytes d).toNat = sumLength (f, d) rs
  totals : ∀ d, (m.table.items.map fun fl => (fl.bytes d).toNat).sum = (statsBytes m.stats d).toNat

/-- No close record finds bytes of its flow before it. -/
def ClosesEmpty (rs : List Record) : Prop :=
  ∀ pre cp post, rs = pre ++ .closed cp :: post → ∀ d, sumLength (cp.flowId, d) pre = 0

/-! ### Sums over records -/

theorem sumLength_append (k : Stream) (rs ss : List Record) :
    sumLength k (rs ++ ss) = sumLength k rs + sumLength k ss := by
  simp [sumLength]

theorem dataLength_of_flow_ne {k : Stream} {r : Record} (h : r.flowId ≠ k.1) :
    dataLength k r = 0 := by
  cases r with
  | opened cp => rfl
  | closed cp => rfl
  | data dp bytes => exact if_neg fun heq => h (congrArg Prod.fst heq)

theorem dataLength_of_at {p : Nat → UInt8} {r : Record} (h : r.At p) (k : Stream) :
    dataLength k r = (r.bytesFor k).length := by
  cases r with
  | opened cp => rfl
  | closed cp => rfl
  | data dp bytes =>
    simp only [dataLength, Record.bytesFor]
    split
    · exact h.2.2.1
    · rfl

/-- The records up to the last close of the flow, and those since. -/
theorem sinceClose_split (f : UInt64) (rs : List Record) :
    sinceClose f rs = rs ∨
      ∃ pre cp, cp.flowId = f ∧ rs = pre ++ .closed cp :: sinceClose f rs := by
  induction rs using List.reverseRecOn with
  | nil => exact .inl rfl
  | append_singleton rs r ih =>
    rw [sinceClose_snoc]
    by_cases hr : r.Closes f
    · rw [if_pos hr]
      cases r with
      | closed cp => exact .inr ⟨rs, cp, hr, rfl⟩
      | opened cp => exact hr.elim
      | data dp bytes => exact hr.elim
    · rw [if_neg hr]
      rcases ih with heq | ⟨pre, cp, hcp, heq⟩
      · rw [heq]
        exact .inl rfl
      · refine .inr ⟨pre, cp, hcp, ?_⟩
        rw [← List.cons_append, ← List.append_assoc, ← heq]

/-- What comes after the last close of a flow is no more than what comes after any of them. -/
theorem sumLength_sinceClose_le (k : Stream) (pre : List Record) (cp : KndConnPayload)
    (post : List Record) :
    sumLength k (sinceClose cp.flowId (pre ++ .closed cp :: post)) ≤ sumLength k post := by
  induction post using List.reverseRecOn with
  | nil =>
    rw [sinceClose_snoc, if_pos (show (Record.closed cp).Closes cp.flowId from rfl)]
  | append_singleton post r ih =>
    rw [← List.cons_append, ← List.append_assoc, sinceClose_snoc, sumLength_append]
    by_cases hr : r.Closes cp.flowId
    · rw [if_pos hr]
      exact Nat.zero_le _
    · rw [if_neg hr, sumLength_append]
      exact Nat.add_le_add_right ih _

theorem sinceClose_sublist (f : UInt64) (rs : List Record) : (sinceClose f rs).Sublist rs := by
  rcases sinceClose_split f rs with heq | ⟨pre, cp, -, heq⟩
  · rw [heq]
  · conv => rhs; rw [heq]
    exact (List.sublist_cons_self _ _).trans (List.sublist_append_right _ _)

theorem sumLength_le {k : Stream} {rs ss : List Record} (h : ss.Sublist rs) :
    sumLength k ss ≤ sumLength k rs :=
  (h.map (dataLength k)).sum_le_sum fun _ _ => Nat.zero_le _

theorem sumLength_le_total (f : UInt64) (d : Dir) (rs : List Record) :
    sumLength (f, d) rs ≤ totalLength d rs := by
  refine List.sum_le_sum fun r _ => ?_
  by_cases hf : r.flowId = f
  · rw [hf]
  · rw [dataLength_of_flow_ne hf]
    exact Nat.zero_le _

theorem closesEmpty_iff (rs : List Record) :
    ClosesEmpty rs ↔ ∀ f d, sumLength (f, d) (sinceClose f rs) = sumLength (f, d) rs := by
  have hclosed : ∀ k cp post, sumLength k (.closed cp :: post) = sumLength k post :=
    fun k cp post => Nat.zero_add _
  constructor
  · intro h f d
    rcases sinceClose_split f rs with heq | ⟨pre, cp, rfl, heq⟩
    · rw [heq]
    · have hpre := h pre cp _ heq d
      conv => rhs; rw [heq]
      rw [sumLength_append, hpre, hclosed, Nat.zero_add]
  · rintro h pre cp post rfl d
    have hle := sumLength_sinceClose_le (cp.flowId, d) pre cp post
    rw [h, sumLength_append, hclosed] at hle
    omega

/-- Split by flow, the lengths of a direction add up to the total. -/
theorem sum_sumLength {ids : List UInt64} (hids : ids.Nodup) (d : Dir) {rs : List Record}
    (hrs : ∀ r ∈ rs, r.flowId ∈ ids) :
    (ids.map fun f => sumLength (f, d) rs).sum = totalLength d rs := by
  induction rs with
  | nil => simp [sumLength, totalLength]
  | cons r rs ih =>
    have hone : (ids.map fun f => dataLength (f, d) r).sum = dataLength (r.flowId, d) r := by
      rw [← List.sum_toFinset _ hids]
      refine Finset.sum_eq_single _ (fun f _ hf => dataLength_of_flow_ne (Ne.symm hf)) ?_
      intro hmem
      exact absurd (List.mem_toFinset.mpr (hrs r (List.mem_cons_self ..))) hmem
    have hcons : ∀ f, sumLength (f, d) (r :: rs) = dataLength (f, d) r + sumLength (f, d) rs :=
      fun f => rfl
    simp only [hcons, List.sum_map_add, hone, ih fun s hs => hrs s (List.mem_cons_of_mem _ hs)]
    rfl

/-! ### The run -/

section

variable {utf8ToUtf16 : List UInt8 → List UInt16} {utf16ToUtf8 : List UInt16 → List UInt8}

/-- The bytes of an emission are its record. -/
theorem Emission.record_at {e : Emission} (h : e.Ok) :
    (e.record utf8ToUtf16).At (pointer (e.bytes utf8ToUtf16)) := by
  cases e with
  | driver src recLen sequence timestamp =>
    obtain ⟨hchunk, hle, hlen, hseq⟩ := h
    -- where the record was placed does not show in its bytes
    let a : Accepted := ⟨src.call timestamp, ⟨0, 0, recLen, 0⟩, sequence⟩
    have hcarries : Carries a a.bytes :=
      Accepted.carries (Source.call_legal hchunk timestamp) hle hlen hseq
    exact Source.record_at hcarries rfl hchunk
  | buildConnOpen flow host port timestamp => exact Proxy.buildConnOpen_at ..
  | buildData flow d data timestamp => exact Proxy.buildData_at _ _ _ h.2
  | buildConnClose flow timestamp => exact Proxy.buildConnClose_at ..

theorem Emission.record_produced {e : Emission} (h : e.Ok) :
    (e.record utf8ToUtf16).Produced := by
  cases e with
  | driver src recLen sequence timestamp => exact Source.record_produced h.1
  | buildConnOpen flow host port timestamp => trivial
  | buildData flow d data timestamp => exact h.1
  | buildConnClose flow timestamp => exact ⟨rfl, rfl⟩

/-- A record adds its length to the total of its direction. -/
theorem ingest_stats {p : Nat → UInt8} {r : Record} (hr : r.At p) (m : KndModel) (now : Nat)
    (d : Dir) : statsBytes (m.ingest utf16ToUtf8 p now).stats d =
      statsBytes m.stats d + UInt64.ofNat (dataLength (r.flowId, d) r) := by
  have hclose : ¬kndRecConnClose = kndRecConnOpen := by decide
  have hdata : ¬kndRecData = kndRecConnOpen ∧ ¬kndRecData = kndRecConnClose := by decide
  cases r with
  | opened cp => cases d <;> simp [KndModel.ingest, hr.1, statsBytes, dataLength]
  | closed cp => cases d <;> simp [KndModel.ingest, hr.1, hclose, statsBytes, dataLength]
  | data dp bytes =>
    cases d <;> cases hd : Dir.of dp.direction <;>
      simp [KndModel.ingest, hr.1, hr.2.1, hdata, statsBytes, dataLength, Record.flowId, hd]

/-- The model after the records `rs`, with its totals. -/
structure Counts (cap : Nat) (m : KndModel) (rs : List Record) : Prop where
  tracks : Tracks cap m rs
  sized : ∀ r ∈ rs, ∀ k, dataLength k r = (r.bytesFor k).length
  known : ∀ r ∈ rs, (m.find r.flowId).isSome
  totals : ∀ d, statsBytes m.stats d = UInt64.ofNat (totalLength d rs)

theorem counts_clear (m : KndModel) : Counts m.payloadCap m.clear [] := by
  have hempty := tracks_empty m.payloadCap m.packetCap
  constructor
  case tracks =>
    exact ⟨hempty.wellFormed, rfl, hempty.payload, hempty.truncated, hempty.closed, hempty.bytes⟩
  case sized => simp
  case known => simp
  case totals =>
    intro d
    cases d <;> rfl

theorem Counts.ingest {cap : Nat} {m : KndModel} {rs : List Record} (h : Counts cap m rs)
    {p : Nat → UInt8} {r : Record} (hr : r.At p) (hproduced : r.Produced) (now : Nat) :
    Counts cap (m.ingest utf16ToUtf8 p now) (rs ++ [r]) := by
  obtain ⟨-, hown, hother⟩ := KndModel.ingest_updated utf16ToUtf8 h.tracks.wellFormed now
    (recordFlow_of_at hr)
  constructor
  case tracks => exact h.tracks.ingest hr hproduced now
  case sized =>
    intro s hs
    rcases List.mem_append.mp hs with hs | hs
    · exact h.sized s hs
    · obtain rfl := List.mem_singleton.mp hs
      exact dataLength_of_at hr
  case known =>
    intro s hs
    by_cases hflow : s.flowId = r.flowId
    · rw [hflow, hown]
      rfl
    · rw [hother _ hflow]
      rcases List.mem_append.mp hs with hs | hs
      · exact h.known s hs
      · exact absurd (congrArg Record.flowId (List.mem_singleton.mp hs)) hflow
  case totals =>
    intro d
    have hsum : totalLength d (rs ++ [r]) = totalLength d rs + dataLength (r.flowId, d) r := by
      simp [totalLength]
    rw [ingest_stats hr, h.totals, hsum, UInt64.ofNat_add]

theorem ingestAll_counts {cap : Nat} {m : KndModel} {rs : List Record} {es : List (Emission × Nat)}
    (h : Counts cap m rs) (hok : ∀ e ∈ es, e.1.Ok) :
    Counts cap (ingestAll utf8ToUtf16 utf16ToUtf8 m es) (rs ++ recordsOf utf8ToUtf16 es) := by
  induction es generalizing m rs with
  | nil => simpa [recordsOf, ingestAll] using h
  | cons e es ih =>
    have he := hok e (List.mem_cons_self ..)
    have hstep : Counts cap _ (rs ++ [e.1.record utf8ToUtf16]) :=
      @Counts.ingest utf16ToUtf8 _ _ _ h _ _ (Emission.record_at he) (Emission.record_produced he) e.2
    have hrest := ih hstep fun e' he' => hok e' (List.mem_cons_of_mem _ he')
    rw [List.append_assoc] at hrest
    exact hrest

theorem Counts.sumLength_eq {cap : Nat} {m : KndModel} {rs : List Record} (h : Counts cap m rs)
    (k : Stream) {ss : List Record} (hss : ∀ r ∈ ss, r ∈ rs) :
    sumLength k ss = (bytesOf k ss).length := by
  rw [sumLength, bytesOf, List.length_flatMap]
  exact congrArg List.sum (List.map_congr_left fun r hr => h.sized r (hss r hr) k)

/-- A flow's counter is the sum over its records since its last close. -/
theorem Counts.flow {cap : Nat} {m : KndModel} {rs : List Record} (h : Counts cap m rs)
    {f : UInt64} {fl : KndFlow} (hf : m.find f = some fl) (d : Dir) :
    (fl.bytes d).toNat = sumLength (f, d) (sinceClose f rs) % 2 ^ 64 := by
  have hbytes := h.tracks.bytes f d
  rw [KndModel.flow, hf, Option.getD_some] at hbytes
  rw [hbytes, h.sumLength_eq _ fun r => (sinceClose_sublist f rs).mem, UInt64.toNat_ofNat']

theorem Counts.sum_flows {cap : Nat} {m : KndModel} {rs : List Record} (h : Counts cap m rs)
    {d : Dir} (hflows : ∀ f fl, m.find f = some fl → (fl.bytes d).toNat = sumLength (f, d) rs) :
    (m.table.items.map fun fl => (fl.bytes d).toNat).sum = totalLength d rs := by
  have hwf := h.tracks.wellFormed
  rw [← sum_sumLength hwf.nodup d fun r hr => hwf.mem_keys (h.known r hr), List.map_map]
  exact congrArg List.sum (List.map_congr_left fun fl hfl => hflows _ _ (hwf.mem_items.mp hfl))

/-- Since the last clear the counters agree with the records exactly where no close record came
after data of its flow, and no direction carried 2^64 bytes. -/
theorem accounted_iff (m : KndModel) {es : List (Emission × Nat)} (hok : ∀ e ∈ es, e.1.Ok) :
    Accounted (ingestAll utf8ToUtf16 utf16ToUtf8 m.clear es) (recordsOf utf8ToUtf16 es) ↔
      ClosesEmpty (recordsOf utf8ToUtf16 es) ∧
        ∀ d, totalLength d (recordsOf utf8ToUtf16 es) < 2 ^ 64 := by
  have h : Counts _ (ingestAll utf8ToUtf16 utf16ToUtf8 m.clear es) ([] ++ recordsOf utf8ToUtf16 es) :=
    ingestAll_counts (counts_clear m) hok
  rw [List.nil_append] at h
  generalize ingestAll utf8ToUtf16 utf16ToUtf8 m.clear es = m' at h ⊢
  generalize recordsOf utf8ToUtf16 es = rs at h ⊢
  have htotals : ∀ d, (statsBytes m'.stats d).toNat = totalLength d rs % 2 ^ 64 := by
    intro d
    rw [h.totals, UInt64.toNat_ofNat']
  constructor
  · intro haccounted
    refine ⟨(closesEmpty_iff rs).mpr fun f d => ?_, fun d => ?_⟩
    · have hle := sumLength_le (k := (f, d)) (sinceClose_sublist f rs)
      cases hf : m'.find f with
      | some fl =>
        have hflow := haccounted.flows f fl hf d
        rw [h.flow hf] at hflow
        have hmod := Nat.mod_le (sumLength (f, d) (sinceClose f rs)) (2 ^ 64)
        omega
      | none =>
        have hzero : sumLength (f, d) rs = 0 := by
          refine List.sum_eq_zero fun n hn => ?_
          obtain ⟨r, hr, rfl⟩ := List.mem_map.mp hn
          refine dataLength_of_flow_ne fun heq => ?_
          have hknown := h.known r hr
          rw [heq, hf] at hknown
          cases hknown
        omega
    · have hsum := haccounted.totals d
      rw [h.sum_flows fun f fl hf => haccounted.flows f fl hf d, htotals] at hsum
      rw [hsum]
      exact Nat.mod_lt _ (Nat.two_pow_pos 64)
  · rintro ⟨hclosed, hlt⟩
    have hflows : ∀ f fl, m'.find f = some fl → ∀ d, (fl.bytes d).toNat = sumLength (f, d) rs := by
      intro f fl hf d
      rw [h.flow hf, (closesEmpty_iff rs).mp hclosed f d]
      exact Nat.mod_eq_of_lt (Nat.lt_of_le_of_lt (sumLength_le_total f d rs) (hlt d))
    refine ⟨hflows, fun d => ?_⟩
    rw [h.sum_flows fun f fl hf => hflows f fl hf d, htotals, Nat.mod_eq_of_lt (hlt d)]

end

/-! ### One connection of the proxy -/

/-- Windows' conversions on texts below 0x80. -/
def asciiToUtf16 (bs : List UInt8) : List UInt16 := bs.map UInt8.toUInt16

def asciiToUtf8 (cs : List UInt16) : List UInt8 := cs.map UInt16.toUInt8

/-- The connection opens, and sends and receives. -/
def relayed : List (Emission × Nat) :=
  [(.buildConnOpen 0x8000000000000001 (text "example.com") 443 100, 1),
    (.buildData 0x8000000000000001 .outbound [1, 2, 3] 101, 1),
    (.buildData 0x8000000000000001 .inbound [4, 5] 102, 2)]

/-- It closes. -/
def relayedClosed : List (Emission × Nat) :=
  relayed ++ [(.buildConnClose 0x8000000000000001 103, 3)]

theorem accounted_iff_relayed :
    Accounted (ingestAll asciiToUtf16 asciiToUtf8 (KndModel.empty 1024 16).clear relayed)
      (recordsOf asciiToUtf16 relayed) := by
  have hok : ∀ e ∈ relayed, e.1.Ok := by simp [relayed, Emission.Ok, Proxy.relaySize]
  refine (accounted_iff _ hok).mpr ⟨?_, ?_⟩
  · intro pre cp post h
    have hmem : Record.closed cp ∈ recordsOf asciiToUtf16 relayed := by
      rw [h]
      exact List.mem_append_right _ (List.mem_cons_self ..)
    simp [relayed, recordsOf, Emission.record] at hmem
  · intro d
    cases d <;> decide

/-- The close erases the flow's counters, and the totals keep the five bytes. -/
theorem relayed_close_erases : ¬∀ (m : KndModel) (es : List (Emission × Nat)),
    (∀ e ∈ es, e.1.Ok) →
    Accounted (ingestAll asciiToUtf16 asciiToUtf8 m.clear es) (recordsOf asciiToUtf16 es) := by
  intro h
  have hok : ∀ e ∈ relayedClosed, e.1.Ok := by
    simp [relayedClosed, relayed, Emission.Ok, Proxy.relaySize]
  have hflow := (h (KndModel.empty 1024 16) relayedClosed hok).flows 0x8000000000000001
  have hzero : ((ingestAll asciiToUtf16 asciiToUtf8 (KndModel.empty 1024 16).clear
      relayedClosed).find 0x8000000000000001).map (KndFlow.bytes · .outbound) = some 0 := by
    decide +kernel
  obtain ⟨fl, hfind, hbytes⟩ := Option.map_eq_some_iff.mp hzero
  have hsum := hflow fl hfind .outbound
  rw [hbytes] at hsum
  revert hsum
  decide

end NetDebugger.Accounting
