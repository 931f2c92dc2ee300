import NetDebugger.Ring.Progress

/-! What the poll hands over: the records of the accepted calls in their order, and all of them where
it starts after the last publication. -/

namespace NetDebugger.Ring

open Lib

/-- The `writePos` that the running poll sampled. -/
def Poll.target : Poll → Option Nat
  | .idle => none
  | .walking wp _ => some wp
  | .reading wp _ _ _ => some wp

/-- The running poll sampled `writePos` after the last publication. -/
def System.Sampled (y : System) : Prop := y.consumer.target = some (produced y.accepted)

theorem sampled_step {y z : System} {e : Event} (h : y.Sampled) (hpublish : e ≠ .publish)
    (hrelease : e ≠ .release) (hstep : y.step e = some z) : z.Sampled := by
  unfold System.Sampled at h ⊢
  cases System.step_cases hstep with
  | call c hp =>
    rw [System.begin_consumer, System.begin_accepted]
    exact h
  | store p st rest hp hst => exact h
  | publish p hp hst => exact absurd rfl hpublish
  | sample hc => simp [hc, Poll.target] at h
  | walk wp rp hc hlt =>
    rw [hc] at h
    rw [System.walk]
    split <;> exact h
  | copy wp rp len got hc hlt =>
    rw [hc] at h
    exact h
  | deliver wp rp len got hc hle =>
    rw [hc] at h
    exact h
  | release wp rp hc hle => exact absurd rfl hrelease

/-- A poll that reaches the last publication has delivered everything. -/
theorem release_exact {D : Nat} {y z : System} (hinv : Inv D y) (h : y.Sampled)
    (hstep : y.step .release = some z) : z.delivered.length = z.accepted.length := by
  obtain ⟨cur, hinv⟩ := hinv
  cases System.step_cases hstep with
  | release wp rp hc hle =>
    have hspan := hinv.span
    have honRing := hinv.onRing
    rw [System.Sampled, hc] at h
    rw [hc] at hspan honRing
    simp only [Poll.target, Option.some.injEq, Poll.cursor] at h hspan honRing
    have hnone : cur = [] := span_eq_zero honRing (by omega)
    have hpending := hinv.pending
    rw [hnone] at hpending
    have hle := hinv.ordered.length_le
    have hge := List.drop_eq_nil_iff.mp hpending
    simp only [System.channel, List.length_map] at hle hge
    exact Nat.le_antisymm hle hge

/-- What the callback gets is the record of the next accepted call. -/
theorem deliver_next {D : Nat} {y : System} {wp rp len : Nat} {got : List UInt8} (h : Inv D y)
    (hc : y.consumer = .reading wp rp len got) (hle : len ≤ got.length) :
    ∃ a, y.accepted[y.delivered.length]? = some a ∧ got = a.bytes ∧ Carries a a.bytes := by
  obtain ⟨cur, h⟩ := h
  obtain ⟨-, hreceive⟩ := deliver_inv h hc hle
  obtain ⟨bs, hget, heq⟩ := Option.map_eq_some_iff.mp hreceive
  simp only [System.channel, List.getElem?_map] at hget
  obtain ⟨a, ha, rfl⟩ := Option.map_eq_some_iff.mp hget
  have hdelivered : y.delivered ++ [a.bytes] = y.delivered ++ [got] := congrArg Fifo.received heq
  refine ⟨a, ha, (List.singleton_inj.mp (List.append_cancel_left hdelivered)).symm, ?_⟩
  exact h.carries a (List.mem_of_getElem? ha)

/-- An idle consumer that has read up to the published position has everything, and the position
has not wrapped. -/
theorem drained_exact {D : Nat} {y : System} (hD : RingSize D) (hinv : Inv D y)
    (hc : y.consumer = .idle) (hpos : y.ring.header.readPos = y.ring.header.writePos) :
    y.delivered = y.accepted.map Accepted.bytes ∧ produced y.accepted < 2 ^ 64 := by
  obtain ⟨cur, hinv⟩ := hinv
  have hspan := hinv.span
  have honRing := hinv.onRing
  have hpublished := hinv.published
  have hroom := hinv.room
  have hhigh := hD.high
  rw [hc] at hspan honRing
  simp only [Poll.cursor] at hspan honRing
  have hbelow : produced y.accepted < 2 ^ 64 := by omega
  have hnone : cur = [] := span_eq_zero honRing (by omega)
  have hpending := hinv.pending
  rw [hnone] at hpending
  have hle := List.drop_eq_nil_iff.mp hpending
  exact ⟨hinv.ordered.eq_of_length_le hle, hbelow⟩

theorem delivered_le {D : Nat} {y : System} (h : Inv D y) :
    y.delivered.length ≤ y.accepted.length := by
  obtain ⟨cur, hinv⟩ := h
  have hle := hinv.ordered.length_le
  rwa [System.channel, List.length_map] at hle

theorem exact_step {D : Nat} {y z : System} {e : Event} (hz : Inv D z)
    (h : y.delivered.length = y.accepted.length) (hpublish : e ≠ .publish)
    (hstep : y.step e = some z) : z.delivered.length = z.accepted.length := by
  have hle := delivered_le hz
  have haccepted := accepted_step hpublish hstep
  by_cases hdeliver : e = .deliver
  · subst hdeliver
    cases System.step_cases hstep with
    | deliver wp rp len got hc hlen =>
      simp only [System.deliver, List.length_append, List.length_singleton] at hle ⊢
      omega
  · rw [delivered_step hdeliver hstep, haccepted]
    exact h

/-- From a poll that sampled the last publication on, once it ends everything is delivered. -/
theorem sampled_run {D : Nat} {y z : System} {es : List Event} (hD : RingSize D) (hinv : Inv D y)
    (h : y.Sampled) (hlegal : ∀ e ∈ es, e.Legal) (hpublish : .publish ∉ es) (hrelease : .release ∈ es)
    (hrun : runEvents System.step y es = some z) : z.delivered.length = z.accepted.length := by
  induction es generalizing y with
  | nil => simp at hrelease
  | cons e es ih =>
    obtain ⟨m, hm, hrest⟩ := runEvents_cons.mp hrun
    have hne : e ≠ .publish := fun he => hpublish (he ▸ List.mem_cons_self ..)
    have hnot : .publish ∉ es := fun hmem => hpublish (List.mem_cons_of_mem _ hmem)
    have hlegal' : ∀ f ∈ es, f.Legal := fun f hf => hlegal f (List.mem_cons_of_mem _ hf)
    have hminv := (step_refines hD (hlegal e (List.mem_cons_self ..)) hinv hm).1
    by_cases he : e = .release
    · subst he
      have hexact := release_exact hinv h hm
      have hstep : ∀ s e t, Event.Legal e ∧ e ≠ .publish →
          Inv D s ∧ s.delivered.length = s.accepted.length → System.step s e = some t →
          Inv D t ∧ t.delivered.length = t.accepted.length := by
        rintro s e t ⟨hl, hp⟩ ⟨hs, hlen⟩ ht
        have htinv := (step_refines hD hl hs ht).1
        exact ⟨htinv, exact_step htinv hlen hp ht⟩
      exact (runEvents_invariant _ hstep ⟨hminv, hexact⟩
        (fun f hf => ⟨hlegal' f hf, fun hf' => hnot (hf' ▸ hf)⟩) hrest).2
    · have hmem : .release ∈ es := by
        rcases List.mem_cons.mp hrelease with heq | hmem
        · exact absurd heq.symm he
        · exact hmem
      exact ih hminv (sampled_step h hne he hm) hlegal' hnot hmem hrest

/-- After a poll that sampled `writePos` after the last publication everything is delivered. -/
theorem run_exact {D : Nat} {y : System} {es₁ es₂ : List Event} (hD : RingSize D)
    (hlegal : ∀ e ∈ es₁ ++ .sample :: es₂, e.Legal)
    (hrun : runEvents System.step (System.initial (RingState.fresh D)) (es₁ ++ .sample :: es₂) =
      some y)
    (hbytes : produced y.accepted < 2 ^ 64) (hpublish : .publish ∉ es₂) (hrelease : .release ∈ es₂) :
    y.delivered.length = y.accepted.length := by
  have hlegal₁ : ∀ e ∈ es₁, e.Legal := fun e he => hlegal e (List.mem_append_left _ he)
  have hlegal₂ : ∀ e ∈ es₂, e.Legal := fun e he =>
    hlegal e (List.mem_append_right _ (List.mem_cons_of_mem _ he))
  obtain ⟨y₁, hrun₁, hrest⟩ := runEvents_append.mp hrun
  obtain ⟨y₂, hsample, hrun₂⟩ := runEvents_cons.mp hrest
  obtain ⟨⟨cur, hinv⟩, -⟩ := run_refines hD hlegal₁ hrun₁
  have hinv₂ : Inv D y₂ := (step_refines hD (fun c hc => by cases hc) ⟨cur, hinv⟩ hsample).1
  have hsame : y.accepted = y₂.accepted := by
    have hkeep : ∀ s e t, e ≠ Event.publish → s.accepted = y₂.accepted → System.step s e = some t →
        t.accepted = y₂.accepted := fun s e t he hs ht => (accepted_step he ht).trans hs
    exact runEvents_invariant _ hkeep rfl (fun e he hpub => hpublish (hpub ▸ he)) hrun₂
  have hsampled : y₂.Sampled := by
    cases System.step_cases hsample with
    | sample hc =>
      have hpublished := hinv.published
      rw [hsame] at hbytes
      simp only at hbytes
      rw [Nat.mod_eq_of_lt hbytes] at hpublished
      exact congrArg some hpublished
  exact sampled_run hD hinv₂ hsampled hlegal₂ hpublish hrelease hrun₂

/-- Whatever the interleaving: the records handed to the callback are a prefix of the accepted
calls' records, all of them after a poll that sampled the last publication; each carries what the
call passed, and the sequence numbers increase. -/
theorem poll_exact {alloc : Allocation} {size : UInt32} {s₀ : RingState}
    (hcreate : kndRingCreate alloc size = .ok s₀) {es : List Event} {y : System}
    (hlegal : ∀ e ∈ es, e.Legal) (hrun : runEvents System.step (System.initial s₀) es = some y)
    (hbytes : produced y.accepted < 2 ^ 64) :
    y.delivered <+: y.accepted.map Accepted.bytes ∧
    (∀ a ∈ y.accepted, Carries a a.bytes) ∧
    (y.delivered.map fun bs => (KndRecord.read (pointer bs)).sequence).Pairwise (· < ·) ∧
    ∀ es₁ es₂, es = es₁ ++ .sample :: es₂ → .publish ∉ es₂ → .release ∈ es₂ →
      y.delivered = y.accepted.map Accepted.bytes := by
  obtain ⟨hD, rfl⟩ := kndRingCreate_ok hcreate
  obtain ⟨⟨cur, hinv⟩, ds, hds⟩ := run_refines hD hlegal hrun
  have hfront : y.delivered <+: y.accepted.map Accepted.bytes := Fifo.run_ordered hds
  have hcarries := hinv.carries
  refine ⟨hfront, hcarries, ?_, ?_⟩
  · have hsequence : (y.accepted.map Accepted.bytes).map
        (fun bs => (KndRecord.read (pointer bs)).sequence) = y.accepted.map Accepted.sequence := by
      rw [List.map_map]
      exact List.map_congr_left fun a ha => (hcarries a ha).sequence
    have hsub := (hfront.map fun bs => (KndRecord.read (pointer bs)).sequence).sublist
    rw [hsequence] at hsub
    exact (List.pairwise_map.mpr hinv.sequence_lt).sublist hsub
  · rintro es₁ es₂ rfl hpublish hrelease
    have hlen := run_exact hD hlegal hrun hbytes hpublish hrelease
    exact hfront.eq_of_length (by rw [List.length_map]; exact hlen)

/-- A record of 40040 bytes. -/
def longCall (b : UInt8) : WriteCall :=
  ⟨kndRecData, 0, .bytes (List.replicate 16 b), .bytes (List.replicate 40000 b), 7⟩

theorem longCall_recLen (b : UInt8) : (longCall b).recLen = 40040 := by
  simp only [longCall, WriteCall.recLen, Buffer.len, List.length_replicate]
  decide

theorem longCall_legal (b : UInt8) : (longCall b).Legal := by
  refine ⟨⟨Buffer.present_bytes _, Buffer.present_bytes _, ?_⟩, .inr (.inr rfl)⟩
  simp only [longCall, Buffer.len, List.length_replicate]
  decide

/-- The smallest ring has no room for two such records: the second is dropped, and after a poll the
third goes behind a pad to the front. -/
theorem poll_exact_wrapped : ∃ es y,
    runEvents System.step (System.initial (RingState.fresh 0x10000)) es = some y ∧
      y.accepted.map Accepted.call = [longCall 1, longCall 3] ∧
      y.ring.header.droppedRecords = 1 ∧ y.ring.header.readPos = 0x10000 + 40040 ∧
      y.delivered = y.accepted.map Accepted.bytes := by
  have hD : RingSize 0x10000 := ⟨⟨16, rfl⟩, by decide, by decide⟩
  have hcreate : kndRingCreate ⟨true, true⟩ 0x10000 = .ok (RingState.fresh 0x10000) := rfl
  have hplace₁ : place 0x10000 0 0 (longCall 1).recLen = .ok ⟨0, 0, 40040, 40040⟩ := by
    rw [longCall_recLen]
    rfl
  have hplace₂ : place 0x10000 40040 0 (longCall 2).recLen = .error 65536 := by
    rw [longCall_recLen]
    rfl
  have hplace₃ : place 0x10000 40040 40040 (longCall 3).recLen =
      .ok ⟨40040, 25496, 40040, 65536⟩ := by
    rw [longCall_recLen]
    rfl
  obtain ⟨n₁, y₁, a₁, hrun₁, h₁, haccepted₁, hcall₁⟩ :=
    (rests_initial hD).accepted hD (longCall_legal 1) hplace₁
  obtain ⟨y₂, hstep₂, h₂, haccepted₂⟩ := h₁.dropped hD (longCall_legal 2) hplace₂
  obtain ⟨es₃, y₃, hes₃, -, hrun₃, h₃, haccepted₃⟩ := h₂.polled hD (by decide)
  obtain ⟨n₄, y₄, a₄, hrun₄, h₄, haccepted₄, hcall₄⟩ :=
    h₃.accepted hD (longCall_legal 3) hplace₃
  obtain ⟨es₅, y₅, hes₅, hrelease, hrun₅, h₅, haccepted₅⟩ := h₄.polled hD (by decide)
  have hquiet : ∀ es : List Event, (∀ e ∈ es, e.Consumer) → ∀ e ∈ es, e.Legal ∧ e ≠ .publish := by
    intro es hes e he
    rcases hes e he with rfl | rfl | rfl | rfl | rfl <;>
      exact ⟨fun c hc => Event.noConfusion hc, fun h => Event.noConfusion h⟩
  let es := .call (longCall 1) :: List.replicate n₁ .store ++ [.publish] ++
    .call (longCall 2) :: .sample :: es₃ ++
      (.call (longCall 3) :: List.replicate n₄ .store ++ [.publish])
  have hrun : runEvents System.step (System.initial (RingState.fresh 0x10000))
      (es ++ .sample :: es₅) = some y₅ :=
    runEvents_append.mpr ⟨y₄, runEvents_append.mpr ⟨y₃, runEvents_append.mpr ⟨y₁, hrun₁,
      runEvents_cons.mpr ⟨y₂, hstep₂, hrun₃⟩⟩, hrun₄⟩, hrun₅⟩
  have hcall (b : UInt8) : Event.Legal (.call (longCall b)) := fun c hc =>
    Event.call.inj hc ▸ longCall_legal b
  have hstores (n : Nat) : ∀ e ∈ List.replicate n Event.store, e.Legal := by
    intro e he c hc
    rw [List.eq_of_mem_replicate he] at hc
    exact Event.noConfusion hc
  have hpublish : Event.Legal .publish := fun c hc => Event.noConfusion hc
  have hsample : Event.Legal .sample := fun c hc => Event.noConfusion hc
  have hlegal : ∀ e ∈ es ++ .sample :: es₅, e.Legal := by
    simp only [es, List.forall_mem_append, List.forall_mem_cons, List.not_mem_nil, false_implies,
      implies_true, and_true]
    exact ⟨⟨⟨⟨⟨hcall 1, hstores n₁⟩, hpublish⟩, hcall 2, hsample, fun e he => (hquiet es₃ hes₃ e he).1⟩,
      ⟨hcall 3, hstores n₄⟩, hpublish⟩, hsample, fun e he => (hquiet es₅ hes₅ e he).1⟩
  have hall := poll_exact hcreate hlegal hrun (by rw [h₅.made]; decide)
  refine ⟨_, y₅, hrun, ?_, h₅.lost, h₅.passed, hall.2.2.2 es es₅ rfl
    (fun h => (hquiet es₅ hes₅ _ h).2 rfl) hrelease⟩
  rw [haccepted₅, haccepted₄, haccepted₃, haccepted₂, haccepted₁, List.map_append, List.map_append,
    List.map_singleton, List.map_singleton, hcall₁, hcall₄]
  rfl

end NetDebugger.Ring
