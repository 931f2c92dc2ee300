import NetDebugger.Pipeline.Uninterrupted

/-! What arrives of the wire: with no call dropped the path from the callout to the model is a
capped append; a chunk that the full ring drops leaves a hole that only the ring's own counter
shows. -/

namespace NetDebugger.Pipeline

open Lib NetDebugger.Ring Capture

section

variable {utf16ToUtf8 : List UInt16 → List UInt8}

/-- With every call accepted and everything drained, an open flow holds the first `cap` bytes of
each direction, the full totals, and the mark of truncation exactly where bytes were cut. -/
theorem pipeline_lossless {alloc : Allocation} {size : UInt32} {s₀ : RingState}
    (hcreate : kndRingCreate alloc size = .ok s₀) {cap packetCap : Nat} {es : List Event} {y : State}
    (hrun : runEvents (State.step utf16ToUtf8) (State.initial s₀ cap packetCap) es = some y)
    (hsmall : ∀ i ∈ y.indications, i.data.length ≤ kndStreamCopyMax)
    (haccepted : ∀ c ∈ y.calls, c.2 = true) (hdrained : y.Drained) (f : UInt64)
    (hopen : (y.model.flow f).closed = false) (d : Dir) :
    let total := wire (f, d) y.indications
    (y.model.flow f).payload d = total.take cap ∧
      ((y.model.flow f).bytes d).toNat = total.length ∧
      ((y.model.flow f).truncated d = true ↔ cap < total.length) := by
  intro total
  obtain ⟨hD, hy⟩ := run_inv hcreate hrun
  obtain ⟨hmodel, hbytes⟩ := drained_model hD hy hdrained
  have htotal : sentFor (f, d) (kept y.calls) = total := by
    rw [sentFor_kept fun c hc _ => haccepted c hc, drained_sent hy hdrained,
      indicated_eq_wire fun i hi _ => hsmall i hi]
  have hpayload := hmodel.payload f d
  have htruncated := hmodel.truncated f d
  have hcounter := hmodel.bytes f d
  have hsince : sinceClose f ((kept y.calls).map Source.record) =
      (kept y.calls).map Source.record := by
    refine sinceClose_of_open fun r hr hclose => ?_
    rw [(hmodel.closed f).mpr ⟨r, hr, hclose⟩] at hopen
    cases hopen
  have hlt := hbytes (f, d)
  rw [hsince] at hcounter
  have hbytesOf : bytesOf (f, d) ((kept y.calls).map Source.record) = total := htotal
  rw [hbytesOf] at hpayload htruncated hcounter
  rw [htotal] at hlt
  refine ⟨hpayload, ?_, htruncated⟩
  rw [hcounter, UInt64.toNat_ofNat']
  exact Nat.mod_eq_of_lt hlt

/-- What the mark of truncation says without the assumption that every call is accepted: it covers
the cap, and the ring's counter covers the drops. -/
theorem pipeline_truncated {alloc : Allocation} {size : UInt32} {s₀ : RingState}
    (hcreate : kndRingCreate alloc size = .ok s₀) {cap packetCap : Nat} {es : List Event} {y : State}
    (hrun : runEvents (State.step utf16ToUtf8) (State.initial s₀ cap packetCap) es = some y)
    (hdrained : y.Drained) {f : UInt64} {d : Dir}
    (hsmall : ∀ i ∈ y.indications, stream i = (f, d) → i.data.length ≤ kndStreamCopyMax)
    (hwhole : (y.model.flow f).truncated d = false) :
    (y.model.flow f).payload d = sentFor (f, d) (kept y.calls) ∧
    sentFor (f, d) (y.calls.map Prod.fst) = wire (f, d) y.indications ∧
    ((∀ c ∈ y.calls, c.1.record.bytesFor (f, d) ≠ [] → c.2 = true) →
      (y.model.flow f).payload d = wire (f, d) y.indications) ∧
    y.system.ring.header.droppedRecords = dropped y.calls % 2 ^ 64 := by
  obtain ⟨hD, hy⟩ := run_inv hcreate hrun
  have hmodel := (drained_model hD hy hdrained).1
  have hcap : (sentFor (f, d) (kept y.calls)).length ≤ cap := by
    have htruncated := hmodel.truncated f d
    rw [hwhole] at htruncated
    exact Nat.le_of_not_lt fun hlt => by cases htruncated.mpr hlt
  have hpayload : (y.model.flow f).payload d = sentFor (f, d) (kept y.calls) := by
    rw [hmodel.payload f d]
    exact List.take_of_length_le hcap
  have hsent : sentFor (f, d) (y.calls.map Prod.fst) = wire (f, d) y.indications := by
    rw [drained_sent hy hdrained, indicated_eq_wire hsmall]
  refine ⟨hpayload, hsent, fun hall => ?_, hy.droppedRecords⟩
  rw [hpayload, sentFor_kept hall, hsent]

end

/-! ### Two flows through a small ring -/

theorem data_recLen (k : Stream) (flags : UInt16) (chunk : List UInt8) (timestamp : UInt64) :
    ((Source.data k flags chunk).call timestamp).recLen = kndAlignUp (40 + chunk.length) % 2 ^ 32 := by
  have hpayload : ((Source.data k flags chunk).call timestamp).payload.len = 16 :=
    KndDataPayload.bytes_length _
  rw [WriteCall.recLen, hpayload]
  rfl

/-- No call was about a connection. -/
theorem open_of_data {D cap : Nat} {y : State} (hD : RingSize D) (hy : Inv D cap y)
    (hdrained : y.Drained) (hdata : ∀ c ∈ y.calls, ∃ k flags chunk, c.1 = .data k flags chunk)
    (f : UInt64) : (y.model.flow f).closed = false := by
  refine Bool.eq_false_iff.mpr fun htrue => ?_
  obtain ⟨r, hr, hcloses⟩ := ((drained_model hD hy hdrained).1.closed f).mp htrue
  obtain ⟨src, hsrc, rfl⟩ := List.mem_map.mp hr
  obtain ⟨c, hc, hkept⟩ := List.mem_filterMap.mp hsrc
  obtain ⟨k, flags, chunk, hdata⟩ := hdata c hc
  split at hkept
  · obtain rfl := Option.some.inj hkept
    rw [hdata] at hcloses
    exact hcloses
  · contradiction

def largeIndication (bs : List UInt8) : Indication := ⟨true, 7, none, bs⟩

theorem stream_large (bs : List UInt8) : stream (largeIndication bs) = (7, .inbound) := rfl

def smallIndication : Indication := ⟨false, 9, none, [1, 2, 3]⟩

theorem stream_small : stream smallIndication = (9, .outbound) := rfl

/-- Two chunks of a flow, of which the second wraps, and three bytes of another. -/
theorem pipeline_lossless_two : ∃ (bs : List UInt8) (es : List Event) (y : State),
    bs.length = 131072 ∧ runEvents (State.step fun _ => [])
      (State.initial (RingState.fresh 0x20000) 100000 10) es = some y ∧
    y.indications = [largeIndication bs, smallIndication] ∧
    (y.model.flow 7).payload .inbound = bs.take 100000 ∧ (y.model.flow 7).bytesIn.toNat = 131072 ∧
    (y.model.flow 7).truncated .inbound = true ∧ (y.model.flow 9).payload .outbound = [1, 2, 3] ∧
    (y.model.flow 9).bytesOut.toNat = 3 ∧ (y.model.flow 9).truncated .outbound = false := by
  have hcreate : kndRingCreate ⟨true, true⟩ 0x20000 = .ok (RingState.fresh 0x20000) := rfl
  have hD : RingSize 0x20000 := ⟨⟨17, rfl⟩, by decide, by decide⟩
  obtain ⟨c₁, c₂, h₁, h₂⟩ : ∃ c₁ c₂ : List UInt8, c₁.length = 65536 ∧ c₂.length = 65536 :=
    ⟨List.replicate 65536 1, List.replicate 65536 2, List.length_replicate, List.length_replicate⟩
  have hlen : (c₁ ++ c₂).length = 131072 := by rw [List.length_append, h₁, h₂]
  have hmax : kndMaxDataChunk = 65536 := rfl
  obtain ⟨hlarge, hflags⟩ := @kndClassifyStream_cut (largeIndication (c₁ ++ c₂)) [c₁] c₂
    (by simp only [List.forall_mem_singleton, h₁, hmax]) (by omega) (by omega)
    (by rw [List.flatten_singleton]; rfl) (by simp only [largeIndication, hlen]; decide)
  rw [List.singleton_append] at hlarge
  have hsmallest : (kndClassifyStream smallIndication).map (smallIndication.flags, ·) =
      [(0, [1, 2, 3])] := by
    decide +kernel
  have hrec₁ : ((Source.data (7, .inbound) 0 c₁).call 0).recLen = 65576 := by
    rw [data_recLen, h₁]
    decide
  have hrec₂ : ((Source.data (7, .inbound) 0 c₂).call 0).recLen = 65576 := by
    rw [data_recLen, h₂]
    decide
  have hplace₁ : place 0x20000 0 0 ((Source.data (7, .inbound) 0 c₁).call 0).recLen =
      .ok ⟨0, 0, 65576, 65576⟩ := by
    rw [hrec₁]
    rfl
  have hplace₂ : place 0x20000 65576 65576 ((Source.data (7, .inbound) 0 c₂).call 0).recLen =
      .ok ⟨65576, 65496, 65576, 131072⟩ := by
    rw [hrec₂]
    rfl
  have hrec₃ : ((Source.data (9, .outbound) 0 [1, 2, 3]).call 0).recLen = 48 := by
    rw [data_recLen]
    decide
  have hplace₃ : place 0x20000 196648 196648
      ((Source.data (9, .outbound) 0 [1, 2, 3]).call 0).recLen = .ok ⟨65576, 0, 48, 48⟩ := by
    rw [hrec₃]
    rfl
  obtain ⟨y₁, hrun₁, hy₁⟩ := @State.Keeps.indicate (fun _ => []) _ _ _ _ hD
    (keeps_initial hD 100000 10) (largeIndication (c₁ ++ c₂)) rfl
  rw [hlarge, hflags, stream_large] at hy₁
  obtain ⟨y₂, hrun₂, hy₂⟩ := @State.Keeps.emit (fun _ => []) _ _ _ _ hD hy₁ (7, .inbound) 0 c₁
    [(0, c₂)] (by simp) _ hplace₁ 65576
    (show 0 + (0 + 65576) = 65576 by decide)
  obtain ⟨y₃, hrun₃, hy₃⟩ := @State.Keeps.poll (fun _ => []) _ _ _ _ hD hy₂
    (show 65576 < 2 ^ 64 by decide)
  obtain ⟨y₄, hrun₄, hy₄⟩ := @State.Keeps.indicate (fun _ => []) _ _ _ _ hD hy₃ smallIndication
    (by simp [stream_small])
  rw [hsmallest, stream_small] at hy₄
  obtain ⟨y₅, hrun₅, hy₅⟩ := @State.Keeps.emit (fun _ => []) _ _ _ _ hD hy₄ (7, .inbound) 0 c₂
    [] (by simp) _ hplace₂ 196648
    (show 65576 + (65496 + 65576) = 196648 by decide)
  obtain ⟨y₆, hrun₆, hy₆⟩ := @State.Keeps.poll (fun _ => []) _ _ _ _ hD hy₅
    (show 196648 < 2 ^ 64 by decide)
  obtain ⟨y₇, hrun₇, hy₇⟩ := @State.Keeps.emit (fun _ => []) _ _ _ _ hD hy₆ (9, .outbound) 0
    [1, 2, 3] [] (by simp) _ hplace₃ 196696
    (show 196648 + (0 + 48) = 196696 by decide)
  obtain ⟨y, hrun₈, hy⟩ := @State.Keeps.poll (fun _ => []) _ _ _ _ hD hy₇
    (show 196696 < 2 ^ 64 by decide)
  obtain ⟨es, -, hrun⟩ := hrun₁.trans (hrun₂.trans (hrun₃.trans (hrun₄.trans (hrun₅.trans
    (hrun₆.trans (hrun₇.trans hrun₈))))))
  have hindications : y.indications = [largeIndication (c₁ ++ c₂), smallIndication] := hy.indications
  have hcalls : y.calls = [(.data (7, .inbound) 0 c₁, true), (.data (7, .inbound) 0 c₂, true),
    (.data (9, .outbound) 0 [1, 2, 3], true)] := hy.calls
  have hdrained : y.Drained := by
    refine hy.drained rfl (show 196696 < 2 ^ 64 by decide) fun i hi => ?_
    rcases List.mem_pair.mp hi with rfl | rfl <;>
      simp [stream_large, stream_small]
  have hsmall : ∀ i ∈ y.indications, i.data.length ≤ kndStreamCopyMax := by
    rw [hindications]
    simp only [List.forall_mem_cons, List.not_mem_nil, false_implies, implies_true, and_true]
    exact ⟨by simp only [largeIndication, hlen]; decide, by decide⟩
  have haccepted : ∀ c ∈ y.calls, c.2 = true := by simp [hcalls]
  have hopen := open_of_data hD hy.inv hdrained (by simp [hcalls])
  have hwire : wire (7, .inbound) y.indications = c₁ ++ c₂ := by
    rw [hindications, wire, List.flatMap_cons, List.flatMap_singleton, stream_large, stream_small,
      if_pos rfl, if_neg (by decide), List.append_nil]
    rfl
  have hwire' : wire (9, .outbound) y.indications = [1, 2, 3] := by
    rw [hindications, wire, List.flatMap_cons, List.flatMap_singleton, stream_large, stream_small,
      if_neg (by decide), if_pos rfl, List.nil_append]
    rfl
  obtain ⟨hpayload, hbytes, htruncated⟩ :=
    pipeline_lossless hcreate hrun hsmall haccepted hdrained 7 (hopen 7) .inbound
  obtain ⟨hpayload', hbytes', htruncated'⟩ :=
    pipeline_lossless hcreate hrun hsmall haccepted hdrained 9 (hopen 9) .outbound
  rw [hwire] at hpayload hbytes htruncated
  rw [hwire'] at hpayload' hbytes' htruncated'
  refine ⟨c₁ ++ c₂, es, y, hlen, hrun, hindications, hpayload, hbytes.trans hlen,
    htruncated.mpr (by rw [hlen]; decide), hpayload', hbytes', ?_⟩
  exact Bool.eq_false_iff.mpr fun htrue => absurd (htruncated'.mp htrue) (by decide)

def halfIndication (flow : UInt64) (bs : List UInt8) : Indication := ⟨false, flow, none, bs⟩

theorem stream_half {flow : UInt64} (h : flow ≠ 0) (bs : List UInt8) :
    stream (halfIndication flow bs) = (flow, .outbound) := by
  simp [stream, halfIndication, Indication.flowId, h]
  rfl

/-- The smallest ring has no room for the second of two chunks: the flow that it was for has a hole,
and the other one is whole. -/
theorem pipeline_truncated_dropped : ∃ (bs : List UInt8) (es : List Event) (y : State),
    bs.length = 40000 ∧ runEvents (State.step fun _ => [])
      (State.initial (RingState.fresh 0x10000) 100000 10) es = some y ∧
    y.indications = [halfIndication 1 bs, halfIndication 2 bs] ∧
    (y.model.flow 1).payload .outbound = bs ∧ (y.model.flow 2).payload .outbound = [] ∧
    y.system.ring.header.droppedRecords = 1 := by
  have hcreate : kndRingCreate ⟨true, true⟩ 0x10000 = .ok (RingState.fresh 0x10000) := rfl
  have hD : RingSize 0x10000 := ⟨⟨16, rfl⟩, by decide, by decide⟩
  obtain ⟨bs, hlen⟩ : ∃ bs : List UInt8, bs.length = 40000 :=
    ⟨List.replicate 40000 1, List.length_replicate⟩
  have hsmall (flow : UInt64) : (halfIndication flow bs).data.length ≤ kndStreamCopyMax := by
    rw [halfIndication, hlen]
    decide
  have hchunks (flow : UInt64) : (kndClassifyStream (halfIndication flow bs)).map
      ((halfIndication flow bs).flags, ·) = [(0, bs)] := by
    have hmax : kndMaxDataChunk = 65536 := rfl
    obtain ⟨hone, hflags⟩ := @kndClassifyStream_cut (halfIndication flow bs) [] bs
      (List.forall_mem_nil _) (by omega) (by omega) rfl (hsmall flow)
    rw [hone, hflags]
    rfl
  have hrec (k : Stream) : ((Source.data k 0 bs).call 0).recLen = 40040 := by
    rw [data_recLen, hlen]
    decide
  have hplace : place 0x10000 0 0 ((Source.data (1, .outbound) 0 bs).call 0).recLen =
      .ok ⟨0, 0, 40040, 40040⟩ := by
    rw [hrec]
    rfl
  have hfull : place 0x10000 40040 0 ((Source.data (2, .outbound) 0 bs).call 0).recLen =
      .error 65536 := by
    rw [hrec]
    rfl
  obtain ⟨y₁, hrun₁, hy₁⟩ := @State.Keeps.indicate (fun _ => []) _ _ _ _ hD
    (keeps_initial hD 100000 10) (halfIndication 1 bs) rfl
  rw [hchunks, stream_half (by decide)] at hy₁
  obtain ⟨y₂, hrun₂, hy₂⟩ := @State.Keeps.emit (fun _ => []) _ _ _ _ hD hy₁ (1, .outbound) 0 bs
    [] (by simp) _ hplace 40040
    (show 0 + (0 + 40040) = 40040 by decide)
  obtain ⟨y₃, hrun₃, hy₃⟩ := @State.Keeps.indicate (fun _ => []) _ _ _ _ hD hy₂
    (halfIndication 2 bs) (by simp [stream_half])
  rw [hchunks, stream_half (by decide)] at hy₃
  obtain ⟨y₄, hrun₄, hy₄⟩ := @State.Keeps.drop (fun _ => []) _ _ _ _ hD hy₃ (2, .outbound) 0 bs
    [] (by simp) _ hfull
  obtain ⟨y, hrun₅, hy⟩ := @State.Keeps.poll (fun _ => []) _ _ _ _ hD hy₄
    (show 40040 < 2 ^ 64 by decide)
  obtain ⟨es, -, hrun⟩ := hrun₁.trans (hrun₂.trans (hrun₃.trans (hrun₄.trans hrun₅)))
  have hindications : y.indications = [halfIndication 1 bs, halfIndication 2 bs] := hy.indications
  have hcalls : y.calls = [(.data (1, .outbound) 0 bs, true), (.data (2, .outbound) 0 bs, false)] :=
    hy.calls
  have hdrained : y.Drained := by
    refine hy.drained rfl (show 40040 < 2 ^ 64 by decide) fun i hi => ?_
    rcases List.mem_pair.mp hi with rfl | rfl <;> simp [stream_half]
  have hmodel := (drained_model hD hy.inv hdrained).1
  have hsent (flow : UInt64) : sentFor (flow, .outbound) (kept y.calls) =
      if 1 = flow then bs else [] := by
    have hkept : kept y.calls = [] ++ [.data (1, .outbound) 0 bs] := by rw [hcalls]; rfl
    rw [hkept, sentFor_snoc, bytesFor_data]
    simp [sentFor, bytesOf]
  have hwhole (flow : UInt64) (h : (sentFor (flow, .outbound) (kept y.calls)).length ≤ 40000) :
      (y.model.flow flow).truncated .outbound = false := by
    refine Bool.eq_false_iff.mpr fun htrue => ?_
    have hcut : 100000 < (sentFor (flow, .outbound) (kept y.calls)).length :=
      (hmodel.truncated flow .outbound).mp htrue
    omega
  have hshort (flow : UInt64) : ∀ i ∈ y.indications, stream i = (flow, .outbound) →
      i.data.length ≤ kndStreamCopyMax := by
    intro i hi _
    rw [hindications] at hi
    rcases List.mem_pair.mp hi with rfl | rfl <;> exact hsmall _
  obtain ⟨hpayload, -, -, hdropped⟩ := pipeline_truncated hcreate hrun hdrained (hshort 1)
    (hwhole 1 (by rw [hsent, if_pos rfl, hlen]))
  obtain ⟨hpayload', -⟩ := pipeline_truncated hcreate hrun hdrained (hshort 2)
    (hwhole 2 (by rw [hsent, if_neg (by decide)]; decide))
  refine ⟨bs, es, y, hlen, hrun, hindications, hpayload.trans (hsent 1),
    hpayload'.trans (hsent 2), ?_⟩
  rw [hdropped, hcalls]
  rfl

end NetDebugger.Pipeline
