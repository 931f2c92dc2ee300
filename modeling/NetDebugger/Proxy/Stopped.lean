import NetDebugger.Proxy.Joinable

/-! A proxy that has stopped: nothing is left of it but the records in its queue, and these are whole
flows. -/

namespace NetDebugger.Proxy

open Lib

variable {utf8ToUtf16 : List UInt8 → List UInt16} {s t : KndMitmProxy}

/-- A step of the proxy is at most one of its connections and their queue. -/
theorem KndMitmProxy.step_mitm {e : ProxyEvent} (hstep : s.step utf8ToUtf16 e = some t) :
    t.mitm = s.mitm ∨ ∃ e', s.mitm.step utf8ToUtf16 e' = some t.mitm := by
  cases e with
  | start caReady bound =>
    simp only [KndMitmProxy.step, KndMitmProxy.start] at hstep
    split at hstep
    · obtain rfl := Option.some.inj hstep
      exact .inl (by split <;> rfl)
    · contradiction
  | stop =>
    simp only [KndMitmProxy.step, KndMitmProxy.stop] at hstep
    split at hstep
    · obtain rfl := Option.some.inj hstep
      exact .inl (by split <;> rfl)
    · contradiction
  | stopping =>
    simp only [KndMitmProxy.step, KndMitmProxy.stopping] at hstep
    repeat' split at hstep
    all_goals first
      | contradiction
      | exact .inl (Option.some.inj hstep ▸ rfl)
  | listens outcome =>
    simp only [KndMitmProxy.step, KndMitmProxy.listenLoop] at hstep
    repeat' split at hstep
    all_goals first
      | contradiction
      | exact .inl (Option.some.inj hstep ▸ rfl)
  | begins w =>
    simp only [KndMitmProxy.step, KndMitmProxy.begins] at hstep
    split at hstep
    · exact .inl (Option.some.inj hstep ▸ rfl)
    · obtain ⟨mitm, hmitm, heq⟩ := Option.bind_eq_some_iff.mp hstep
      exact .inr ⟨.accepted, hmitm.trans (Option.some.inj heq ▸ rfl)⟩
    · contradiction
  | handles w e =>
    simp only [KndMitmProxy.step, KndMitmProxy.handles] at hstep
    split at hstep
    · next i _ =>
      split at hstep
      · obtain ⟨mitm, hmitm, rfl⟩ := Option.map_eq_some_iff.mp hstep
        exact .inr ⟨.thread i e, hmitm⟩
      · contradiction
    · contradiction
  | returns w =>
    simp only [KndMitmProxy.step, KndMitmProxy.returns] at hstep
    repeat' split at hstep
    all_goals first
      | contradiction
      | exact .inl (Option.some.inj hstep ▸ rfl)
  | drain =>
    simp only [KndMitmProxy.step] at hstep
    split at hstep
    · obtain ⟨mitm, hmitm, rfl⟩ := Option.map_eq_some_iff.mp hstep
      exact .inr ⟨.drain, hmitm⟩
    · contradiction

/-- What is left of the proxy behind `stop`: no socket, no thread, no counted connection, and every
flow whole in the queue, from its CONN_OPEN to its CONN_CLOSE. -/
structure KndMitmProxy.Quiet (utf8ToUtf16 : List UInt8 → List UInt16) (s : KndMitmProxy) : Prop where
  socket : s.listening = false
  listener : s.listener = .notJoinable
  connThreads : s.connThreads = []
  threads : ∀ th ∈ s.threads, ∃ i, th = .returned i
  active : s.active = 0
  drained : s.mitm.threads.members.length < 2 ^ 63 → ∀ t, s.mitm.step utf8ToUtf16 .drain = some t →
    ∀ m ∈ t.threads.members, ∃ opened, m.state.phase = .finished opened ∧
      Lived utf8ToUtf16 m.state.flow (.finished opened) (ofFlow m.state.flow t.batches.flatten)

theorem KndMitmProxy.Wf.quiet (h : s.Wf)
    (hmitm : s.mitm.threads.members.length < 2 ^ 63 → s.mitm.Wf utf8ToUtf16)
    (hidle : s.owner = .idle) (hstopped : s.running = false) : s.Quiet utf8ToUtf16 := by
  have howned := h.owned
  simp only [KndMitmProxy.Owned, hidle, hstopped, Bool.false_eq_true, if_false] at howned
  obtain ⟨hlistener, hnone⟩ := howned
  have hreturned : ∀ (w : Nat) th, s.threads[w]? = some th → ∃ i, th = .returned i := by
    intro w th hw
    by_contra hth
    have hmem := h.attached w th hw fun i heq => hth ⟨i, heq⟩
    rw [KndMitmProxy.toJoin, hnone, hidle] at hmem
    contradiction
  refine ⟨h.closed hstopped (by simp [hidle]), hlistener, hnone, fun th hth => ?_, ?_,
    fun hfew t ht m hm => ?_⟩
  · obtain ⟨w, hw⟩ := List.mem_iff_getElem?.mp hth
    exact hreturned w th hw
  · have hcount : s.threads.countP (·.isActive) = 0 := by
      refine List.countP_eq_zero.mpr fun th hth => ?_
      obtain ⟨w, hw⟩ := List.mem_iff_getElem?.mp hth
      obtain ⟨i, rfl⟩ := hreturned w th hw
      exact Bool.false_ne_true
    rw [h.active, hcount]
    rfl
  · have hwf := hmitm hfew
    have hwhole := (hwf.orderly hfew).drained t ht
    have hlives := (hwf.orderly hfew).lives
    obtain rfl := Option.some.inj ht
    obtain ⟨i, hi⟩ := List.mem_iff_getElem?.mp hm
    obtain ⟨w, hw⟩ := h.handled.thread i (List.getElem?_eq_some_iff.mp hi).1
    have hw' : s.threads[w]? = some (.returned i) := by
      rcases hw with hw | hw
      · obtain ⟨j, hj⟩ := hreturned w _ hw
        contradiction
      · exact hw
    obtain ⟨m', hm', hfinished⟩ := h.handled.finished w i hw'
    obtain rfl : m' = m := Option.some.inj (hm'.symm.trans hi)
    cases hphase : m'.state.phase with
    | finished opened =>
      refine ⟨opened, rfl, ?_⟩
      rw [hwhole, ← hphase]
      exact hlives m' hm
    | peeking | setup | relaying | closing =>
      rw [hphase] at hfinished
      contradiction

/-- Whatever the threads do in whatever order: no thread object is assigned over or dropped while its
thread runs, the counters count, and a `stop` that has returned has left nothing behind. -/
theorem stop_joins_all {es : List ProxyEvent}
    (hrun : runEvents (KndMitmProxy.step utf8ToUtf16) .fresh es = some s) :
    s.terminated = false ∧
      s.conns = UInt64.ofNat (s.threads.length + s.listener.pending) ∧
      s.active = UInt64.ofNat (s.threads.countP (·.isActive)) ∧
      (s.owner = .idle → s.running = false → s.Quiet utf8ToUtf16) := by
  have hinv : s.Wf ∧ (s.mitm.threads.members.length < 2 ^ 63 → s.mitm.Wf utf8ToUtf16) := by
    refine @runEvents_invariant _ _ (KndMitmProxy.step utf8ToUtf16) (fun _ => True)
      (fun s => s.Wf ∧ (s.mitm.threads.members.length < 2 ^ 63 → s.mitm.Wf utf8ToUtf16)) ?_ _ _ _
      ⟨fresh_wf, fun _ => start_mitm_wf⟩ (fun _ _ => trivial) hrun
    rintro s e t - ⟨hwf, hmitm⟩ hstep
    refine ⟨hwf.step hstep, fun hfew => ?_⟩
    rcases KndMitmProxy.step_mitm hstep with heq | ⟨e', he'⟩
    · exact heq ▸ hmitm (heq ▸ hfew)
    · exact (hmitm (Nat.lt_of_le_of_lt (Mitm.members_le he') hfew)).step hfew he'
  exact ⟨hinv.1.terminated, hinv.1.conns, hinv.1.active, hinv.1.quiet hinv.2⟩

/-- A connection that begins while the proxy is stopped, and then breaks off. -/
def stoppedEarly : List ProxyEvent :=
  [.start true true, .listens true, .listens true, .listens true, .listens true, .begins 0, .stop,
    .begins 0, .stopping, .listens false, .stopping, .stopping, .handles 0 .broke,
    .handles 0 (.closes 0), .returns 0, .stopping, .stopping]

theorem stop_joins_all_stoppedEarly : ∃ s : KndMitmProxy,
    runEvents (KndMitmProxy.step fun bs => bs.map UInt8.toUInt16) .fresh stoppedEarly = some s ∧
      s.conns = 1 ∧ s.Quiet fun bs => bs.map UInt8.toUInt16 := by
  obtain ⟨s, hs⟩ : ∃ s, runEvents (KndMitmProxy.step fun bs => bs.map UInt8.toUInt16) .fresh
    stoppedEarly = some s := Option.isSome_iff_exists.mp (by decide +kernel)
  have hend : (runEvents (KndMitmProxy.step fun bs => bs.map UInt8.toUInt16) .fresh
      stoppedEarly).map (fun s => (s.owner, s.running, s.conns)) = some (.idle, false, 1) := by
    decide +kernel
  rw [hs] at hend
  obtain ⟨howner, hrest⟩ := Prod.mk.inj (Option.some.inj hend)
  obtain ⟨hrunning, hconns⟩ := Prod.mk.inj hrest
  exact ⟨s, hs, hconns, (stop_joins_all hs).2.2.2 howner hrunning⟩

end NetDebugger.Proxy
