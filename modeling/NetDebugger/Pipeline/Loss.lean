import NetDebugger.Pipeline.Delivery

/-! How a chunk is lost: the last of 512 chunks of 64 KiB meets a full ring of the driver's own
size. -/

namespace NetDebugger.Pipeline

open Lib NetDebugger.Ring Capture

/-- A stream indication on flow 1, outbound. -/
def sent (bs : List UInt8) : Indication := ⟨false, 1, none, bs⟩

def sentSource (bs : List UInt8) : Source := .data (1, .outbound) 0 bs

/-- The driver's ring after `n` chunks that nobody has read. -/
def filled (bs : List UInt8) (n : Nat) : Account where
  made := n * 65576
  passed := 0
  lost := 0
  queue _ := []
  indications := List.replicate n (sent bs)
  calls := List.replicate n (sentSource bs, true)

theorem ringSize_default : RingSize (2 ^ 25) := ⟨⟨25, rfl⟩, by decide, by decide⟩

/-- Where a full chunk goes in the unread ring: behind the others, until only a rest is left. -/
theorem place_chunk {n : Nat} :
    (n < 511 → ∃ p, place (2 ^ 25) (n * 65576) 0 65576 = .ok p ∧ p.needPad = 0 ∧
      p.recLen = 65576) ∧
    (n = 511 → ∃ bytes, place (2 ^ 25) (n * 65576) 0 65576 = .error bytes) := by
  have hlaid := layout_laid ringSize_default (n * 65576) (show 65576 ≤ 2 ^ 25 by decide)
  have htotal := hlaid.total_eq
  have hle := hlaid.recLen_le
  constructor
  · intro hn
    have hmod : n * 65576 % 2 ^ 25 = n * 65576 := Nat.mod_eq_of_lt (by omega)
    have hpad := hlaid.pad
    have heq := hlaid.recLen_eq
    have hlt := hlaid.recLen_lt
    rw [hmod] at hpad heq
    refine ⟨layout (2 ^ 25) (n * 65576) 65576, ?_, by omega, by omega⟩
    rw [place, if_neg (by omega), if_neg (by omega)]
    exact if_neg (by omega)
  · rintro rfl
    have hpad := hlaid.pad
    refine ⟨(layout (2 ^ 25) (511 * 65576) 65576).total, ?_⟩
    rw [place, if_neg (by omega), if_neg (by omega)]
    exact if_pos (by omega)

section

variable {utf16ToUtf8 : List UInt16 → List UInt8} {bs : List UInt8} {cap n : Nat} {y : State}

/-- Where the call of the next chunk finds its place. -/
theorem place_sent (h : bs.length = kndMaxDataChunk) (hn : n ≤ 511) :
    place (2 ^ 25) (n * 65576 % 2 ^ 64) 0 ((sentSource bs).call 0).recLen =
      place (2 ^ 25) (n * 65576) 0 65576 := by
  have hrec : ((sentSource bs).call 0).recLen = 65576 := by
    rw [sentSource, data_recLen, h]
    decide
  rw [hrec, Nat.mod_eq_of_lt (by omega)]

/-- The indication of one more chunk. -/
theorem indicate_chunk (h : bs.length = kndMaxDataChunk) (hy : y.Keeps (2 ^ 25) cap (filled bs n)) :
    ∃ z, Reaches (State.step utf16ToUtf8) (fun _ => True) y z ∧ z.Keeps (2 ^ 25) cap
      { filled bs n with
        queue := Function.update (fun _ => []) (1, .outbound) [(0, bs)]
        indications := List.replicate (n + 1) (sent bs) } := by
  have hmax : kndMaxDataChunk = 65536 := rfl
  have hcopy : kndStreamCopyMax = 262144 := rfl
  have hlen : (sent bs).data.length = 65536 := h
  obtain ⟨hchunks, hflags⟩ := @kndClassifyStream_cut (sent bs) [] bs (List.forall_mem_nil _)
    (by omega) (by omega) rfl (by omega)
  obtain ⟨z, hrun, hz⟩ := @State.Keeps.indicate utf16ToUtf8 _ _ _ _ ringSize_default hy (sent bs) rfl
  rw [hchunks, hflags] at hz
  rw [List.replicate_succ']
  exact ⟨z, hrun, hz⟩

theorem queued_chunk (bs : List UInt8) :
    Function.update (fun _ : Stream => ([] : List (UInt16 × List UInt8))) (1, .outbound) [(0, bs)]
      (1, .outbound) = [(0, bs)] :=
  Function.update_self ..

theorem fill_step (h : bs.length = kndMaxDataChunk) (hn : n < 511)
    (hy : y.Keeps (2 ^ 25) cap (filled bs n)) :
    ∃ z, Reaches (State.step utf16ToUtf8) (fun _ => True) y z ∧
      z.Keeps (2 ^ 25) cap (filled bs (n + 1)) := by
  obtain ⟨z₁, hrun₁, hz₁⟩ := @indicate_chunk utf16ToUtf8 bs cap n y h hy
  obtain ⟨p, hp, hpad, hrec⟩ := (@place_chunk n).1 hn
  obtain ⟨z, hrun, hz⟩ := @State.Keeps.emit utf16ToUtf8 _ _ _ _ ringSize_default hz₁
    (1, .outbound) 0 bs []
    (queued_chunk bs) p ((place_sent h (Nat.le_of_lt hn)).trans hp)
    ((n + 1) * 65576) (show n * 65576 + (p.needPad + p.recLen) = (n + 1) * 65576 by omega)
  refine ⟨z, hrun₁.trans hrun, ?_⟩
  have hqueue : Function.update (Function.update (fun _ => []) (1, .outbound) [(0, bs)])
      (1, .outbound) [] = fun _ : Stream => ([] : List (UInt16 × List UInt8)) := by
    rw [Function.update_idem]
    exact Function.update_eq_self (1, Dir.outbound) fun _ => []
  rw [hqueue] at hz
  have hcalls : (filled bs (n + 1)).calls = (filled bs n).calls ++ [(sentSource bs, true)] :=
    List.replicate_succ'
  exact ⟨hz.inv, hz.rests, hz.queue, hz.indications, hz.calls.trans hcalls.symm⟩

theorem fill_run (h : bs.length = kndMaxDataChunk) (packetCap : Nat) (hn : n ≤ 511) :
    ∃ y, Reaches (State.step utf16ToUtf8) (fun _ => True)
      (State.initial (RingState.fresh (2 ^ 25)) cap packetCap) y ∧
      y.Keeps (2 ^ 25) cap (filled bs n) := by
  induction n with
  | zero =>
    refine ⟨_, .refl _, ?_⟩
    have hnothing : filled bs 0 = .nothing := by
      rw [filled, Nat.zero_mul]
      rfl
    rw [hnothing]
    exact keeps_initial ringSize_default cap packetCap
  | succ n ih =>
    obtain ⟨y, hrun, hy⟩ := ih (Nat.le_of_succ_le hn)
    obtain ⟨z, hrun', hz⟩ := @fill_step utf16ToUtf8 bs cap n y h hn hy
    exact ⟨z, hrun.trans hrun', hz⟩

end

theorem sentFor_replicate (bs : List UInt8) (n : Nat) :
    (sentFor (1, .outbound) (List.replicate n (sentSource bs))).length = n * bs.length := by
  induction n with
  | zero => simp [sentFor, bytesOf]
  | succ n ih =>
    rw [List.replicate_succ', sentFor_snoc, List.length_append, ih, sentSource, bytesFor_data,
      if_pos rfl]
    ring

theorem wire_replicate (bs : List UInt8) (n : Nat) :
    (wire (1, .outbound) (List.replicate n (sent bs))).length = n * bs.length := by
  have hstream : stream (sent bs) = (1, .outbound) := rfl
  induction n with
  | zero => simp [wire]
  | succ n ih =>
    rw [wire] at ih ⊢
    rw [List.replicate_succ, List.flatMap_cons, List.length_append, ih, if_pos hstream]
    simp only [sent]
    ring

theorem kept_replicate (src : Source) (n : Nat) : kept (List.replicate n (src, true)) =
    List.replicate n src := by
  rw [kept, List.filterMap_replicate]
  rfl

/-- The driver's ring, unread while 512 full chunks arrive, drops the last one; the poll afterwards
leaves a payload that is not marked as truncated. -/
theorem pipeline_hole : ∃ s₀, kndRingCreate ⟨true, true⟩ kndDefaultRingDataSize = .ok s₀ ∧
    ∃ es y, runEvents (State.step fun _ => []) (State.initial s₀ (64 * 2 ^ 20) 50000) es = some y ∧
      y.Drained ∧
      y.indications = List.replicate 512 (sent (List.replicate kndMaxDataChunk 0)) ∧
      (y.model.flow 1).truncated .outbound = false ∧
      (y.model.flow 1).payload .outbound ≠ wire (1, .outbound) y.indications := by
  have hcreate : kndRingCreate ⟨true, true⟩ kndDefaultRingDataSize =
      .ok (RingState.fresh (2 ^ 25)) := rfl
  refine ⟨_, hcreate, ?_⟩
  obtain ⟨bs, hbs, h⟩ : ∃ bs : List UInt8, bs = List.replicate kndMaxDataChunk 0 ∧
      bs.length = kndMaxDataChunk := ⟨_, rfl, List.length_replicate⟩
  rw [← hbs]
  have hmax : kndMaxDataChunk = 65536 := rfl
  obtain ⟨y₁, hrun₁, hy₁⟩ := @fill_run (fun _ => []) bs (64 * 2 ^ 20) 511 h 50000 (Nat.le_refl _)
  -- one more chunk, which is dropped
  obtain ⟨y₂, hrun₂, hy₂⟩ := @indicate_chunk (fun _ => []) bs _ 511 y₁ h hy₁
  obtain ⟨bytes, hfull⟩ := (@place_chunk 511).2 rfl
  obtain ⟨y₃, hrun₃, hy₃⟩ := @State.Keeps.drop (fun _ => []) _ _ _ _ ringSize_default hy₂
    (1, .outbound) 0 bs []
    (queued_chunk bs) bytes ((place_sent h (Nat.le_refl _)).trans hfull)
  -- a poll without interruption
  obtain ⟨y, hrun₄, hy⟩ := @State.Keeps.poll (fun _ => []) _ _ _ _ ringSize_default hy₃
    (show 511 * 65576 < 2 ^ 64 by decide)
  obtain ⟨es, -, hrun⟩ := hrun₁.trans (hrun₂.trans (hrun₃.trans hrun₄))
  have hdrained : y.Drained := by
    refine hy.drained rfl (show 511 * 65576 < 2 ^ 64 by decide) fun i hi => ?_
    rw [List.eq_of_mem_replicate hi]
    have hqueue : Function.update (Function.update
        (fun _ : Stream => ([] : List (UInt16 × List UInt8))) (1, .outbound) [(0, bs)])
        (1, .outbound) [] (1, .outbound) = [] := Function.update_self ..
    exact hqueue
  have hcalls : y.calls = List.replicate 511 (sentSource bs, true) ++ [(sentSource bs, false)] :=
    hy.calls
  have hmodel := (drained_model ringSize_default hy.inv hdrained).1
  have hkept : kept y.calls = List.replicate 511 (sentSource bs) := by
    rw [hcalls, kept_snoc, kept_replicate]
    rfl
  have hpayload := hmodel.payload 1 .outbound
  have htruncated := hmodel.truncated 1 .outbound
  have hlen : (bytesOf (1, .outbound) ((kept y.calls).map Source.record)).length =
      511 * bs.length := by
    rw [hkept]
    exact sentFor_replicate bs 511
  rw [hlen, h, hmax] at htruncated
  refine ⟨es, y, hrun, hdrained, hy.indications, ?_, fun heq => ?_⟩
  · refine Bool.eq_false_iff.mpr fun htrue => ?_
    have hcut := htruncated.mp htrue
    omega
  · have hlong := congrArg List.length heq
    rw [hpayload, List.length_take, hlen, hy.indications, wire_replicate, h, hmax] at hlong
    omega

end NetDebugger.Pipeline
