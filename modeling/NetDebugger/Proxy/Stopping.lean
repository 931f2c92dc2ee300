import NetDebugger.Proxy.Joinable

/-! A proxy that is stopping.  Each thread that `stop` waits for can come to its end without the flag, so
`stop` can return; and only a connection that `accept` is about to take gets a thread meanwhile. -/

namespace NetDebugger.Proxy

open Lib

section

variable {utf8ToUtf16 : List UInt8 → List UInt16} {s t : KndMitmProxy}

/-- The threads of the connections that have been accepted, or still may be without the flag. -/
def KndMitmProxy.admitted (s : KndMitmProxy) : Nat :=
  s.threads.length + match s.listener with
    | .accepting | .spawning => 1
    | _ => 0

theorem KndMitmProxy.step_admitted {e : ProxyEvent} (hrunning : s.running = false)
    (hstart : ∀ caReady bound, e ≠ .start caReady bound)
    (hstep : s.step utf8ToUtf16 e = some t) : t.running = false ∧ t.admitted ≤ s.admitted := by
  cases e with
  | start caReady bound => exact absurd rfl (hstart caReady bound)
  | stop =>
    simp only [KndMitmProxy.step, KndMitmProxy.stop, hrunning, Bool.false_eq_true, if_false] at hstep
    split at hstep
    · exact Option.some.inj hstep ▸ ⟨hrunning, Nat.le_refl _⟩
    · contradiction
  | stopping =>
    simp only [KndMitmProxy.step, KndMitmProxy.stopping] at hstep
    repeat' split at hstep
    all_goals first
      | contradiction
      | obtain rfl := Option.some.inj hstep
        exact ⟨hrunning, by simp [KndMitmProxy.admitted]⟩
  | listens outcome =>
    simp only [KndMitmProxy.step, KndMitmProxy.listenLoop, hrunning] at hstep
    cases hlistener : s.listener with
    | notJoinable | returned =>
      rw [hlistener] at hstep
      contradiction
    | atHead | selecting | spawning =>
      rw [hlistener] at hstep
      obtain rfl := Option.some.inj hstep
      exact ⟨rfl, by simp [KndMitmProxy.admitted, hlistener]⟩
    | accepting =>
      rw [hlistener] at hstep
      dsimp only at hstep
      split at hstep
      all_goals
        obtain rfl := Option.some.inj hstep
        exact ⟨rfl, by simp [KndMitmProxy.admitted, hlistener]⟩
  | begins w =>
    simp only [KndMitmProxy.step, KndMitmProxy.begins] at hstep
    split at hstep
    · obtain rfl := Option.some.inj hstep
      exact ⟨hrunning, by simp [KndMitmProxy.admitted]⟩
    · obtain ⟨mitm, -, heq⟩ := Option.bind_eq_some_iff.mp hstep
      obtain rfl := Option.some.inj heq
      exact ⟨hrunning, by simp [KndMitmProxy.admitted]⟩
    · contradiction
  | handles w e =>
    simp only [KndMitmProxy.step, KndMitmProxy.handles] at hstep
    repeat' split at hstep
    all_goals first
      | contradiction
      | obtain ⟨mitm, -, rfl⟩ := Option.map_eq_some_iff.mp hstep
        exact ⟨hrunning, Nat.le_refl _⟩
  | returns w =>
    simp only [KndMitmProxy.step, KndMitmProxy.returns] at hstep
    repeat' split at hstep
    all_goals first
      | contradiction
      | obtain rfl := Option.some.inj hstep
        exact ⟨hrunning, by simp [KndMitmProxy.admitted]⟩
  | drain =>
    simp only [KndMitmProxy.step] at hstep
    split at hstep
    · obtain ⟨mitm, -, rfl⟩ := Option.map_eq_some_iff.mp hstep
      exact ⟨hrunning, Nat.le_refl _⟩
    · contradiction

/-- Without the flag, a connection can come to its end. -/
def Handler.CanFinish (utf8ToUtf16 : List UInt8 → List UInt16) (h : Handler) : Prop :=
  ∃ es h', (∀ e ∈ es, HandlerEvent.reads false e = true) ∧
    runEvents (fun h e => (h.step utf8ToUtf16 e).map Prod.fst) h es = some h' ∧
      h'.phase.isFinished = true

theorem Handler.CanFinish.step {h h' : Handler} {e : HandlerEvent} {out : List (List UInt8)}
    (hfinish : h'.CanFinish utf8ToUtf16) (hreads : e.reads false = true)
    (hstep : h.step utf8ToUtf16 e = some (h', out)) : h.CanFinish utf8ToUtf16 := by
  obtain ⟨es, h'', hes, hrun, hfinished⟩ := hfinish
  refine ⟨e :: es, h'', List.forall_mem_cons.mpr ⟨hreads, hes⟩, runEvents_cons.mpr ⟨h', ?_, hrun⟩,
    hfinished⟩
  rw [hstep]
  rfl

theorem closing_canFinish (flow : UInt64) (opened : Bool) :
    Handler.CanFinish utf8ToUtf16 ⟨flow, .closing opened⟩ :=
  ⟨[.closes 0], ⟨flow, .finished opened⟩, by simp [HandlerEvent.reads], rfl, rfl⟩

/-- The relay leaves its loop at the flag, and behind a read or a write that fails. -/
theorem relaying_canFinish (flow : UInt64) (r : Relay) (hphase : r.phase ≠ .ended) :
    Handler.CanFinish utf8ToUtf16 ⟨flow, .relaying r⟩ := by
  have hhead : ∀ r : Relay, r.phase = .head →
      Handler.CanFinish utf8ToUtf16 ⟨flow, .relaying r⟩ := by
    intro r hr
    apply (closing_canFinish flow true).step (e := .relays (.check false)) rfl
    simp only [Handler.step, Relay.step, hr, Relay.onCheck, Bool.and_false, Bool.false_eq_true,
      if_false, Option.map_some, if_true]
    rfl
  have hreading : ∀ (r : Relay) dir, r.phase = .reading dir →
      Handler.CanFinish utf8ToUtf16 ⟨flow, .relaying r⟩ := by
    intro r dir hr
    cases dir with
    | outbound =>
      apply (closing_canFinish flow true).step (e := .relays (.read .failed 0)) rfl
      simp only [Handler.step, Relay.step, hr, Relay.leave, if_true, Option.map_some]
      rfl
    | inbound =>
      apply (hhead ({ r with done := true }.leave .inbound) rfl).step
        (e := .relays (.read .failed 0)) rfl
      simp only [Handler.step, Relay.step, hr, Option.map_some]
      rfl
  obtain ⟨phase, done, transcript⟩ := r
  cases phase with
  | head => exact hhead _ rfl
  | reading dir => exact hreading _ dir rfl
  | writing dir buf off =>
    let r : Relay := ⟨.writing dir buf off, done, transcript⟩
    exact (hreading (r.onFailedWrite dir) dir rfl).step (e := .relays (.write .failed)) rfl rfl
  | ended => exact absurd rfl hphase

theorem Handler.Working.canFinish {h : Handler} (hw : h.Working) : h.CanFinish utf8ToUtf16 := by
  obtain ⟨flow, phase⟩ := h
  cases phase with
  | peeking => exact (closing_canFinish flow false).step (e := .broke) rfl rfl
  | setup todo =>
    cases todo with
    | nil =>
      exact (relaying_canFinish flow .start nofun).step (e := .opens [] 0 0) rfl rfl
    | cons _ todo => exact (closing_canFinish flow false).step (e := .broke) rfl rfl
  | relaying r => exact relaying_canFinish flow r (hw r rfl)
  | closing opened => exact closing_canFinish flow opened
  | finished opened => exact ⟨[], ⟨flow, .finished opened⟩, nofun, rfl, rfl⟩

/-- The threads can bring the proxy from `s` to `t`. -/
def KndMitmProxy.Reaches (utf8ToUtf16 : List UInt8 → List UInt16) (s t : KndMitmProxy) : Prop :=
  Lib.Reaches (KndMitmProxy.step utf8ToUtf16) (fun _ => True) s t

theorem KndMitmProxy.Reaches.refl (s : KndMitmProxy) : s.Reaches utf8ToUtf16 s := Lib.Reaches.refl s

theorem KndMitmProxy.Reaches.step {e : ProxyEvent} {m : KndMitmProxy}
    (hstep : s.step utf8ToUtf16 e = some m) (h : m.Reaches utf8ToUtf16 t) :
    s.Reaches utf8ToUtf16 t := Lib.Reaches.head trivial hstep h

theorem KndMitmProxy.Reaches.trans {m : KndMitmProxy} (h : s.Reaches utf8ToUtf16 m)
    (h' : m.Reaches utf8ToUtf16 t) : s.Reaches utf8ToUtf16 t := Lib.Reaches.trans h h'

theorem KndMitmProxy.Wf.reaches (h : s.Wf) (hreaches : s.Reaches utf8ToUtf16 t) : t.Wf := by
  obtain ⟨es, hes, hrun⟩ := hreaches
  exact runEvents_invariant (fun _ => True) (fun _ _ _ _ h hstep => h.step hstep) h hes hrun

/-- What its connection can do, a thread can. -/
theorem handles_reaches {w i : Nat} (hw : s.threads[w]? = some (.handling i))
    {m : Member Handler (List UInt8)} (hm : s.mitm.threads.members[i]? = some m)
    (hrunning : s.running = false) {es : List HandlerEvent} {h' : Handler}
    (hes : ∀ e ∈ es, HandlerEvent.reads false e = true)
    (hrun : runEvents (fun h e => (h.step utf8ToUtf16 e).map Prod.fst) m.state es = some h') :
    ∃ mitm m', s.Reaches utf8ToUtf16 { s with mitm } ∧ mitm.threads.members[i]? = some m' ∧
      m'.state = h' := by
  induction es generalizing s m with
  | nil => exact ⟨s.mitm, m, .refl s, hm, Option.some.inj hrun⟩
  | cons e es ih =>
    obtain ⟨h₁, hfirst, hrest⟩ := runEvents_cons.mp hrun
    obtain ⟨⟨h₁', out⟩, hstep, heq⟩ := Option.map_eq_some_iff.mp hfirst
    obtain rfl : h₁' = h₁ := heq
    have hreads := hes e (List.mem_cons_self ..)
    let mitm : Mitm :=
      { s.mitm with threads := s.mitm.threads.act i h₁' out, queue := s.mitm.queue ++ out }
    have hmitm : s.mitm.step utf8ToUtf16 (.thread i e) = some mitm := by
      rw [Mitm.step, hm, Option.bind_eq_bind, Option.bind_some, hstep]
      rfl
    have hproxy : s.step utf8ToUtf16 (.handles w e) = some { s with mitm } := by
      rw [KndMitmProxy.step, KndMitmProxy.handles, hw]
      dsimp only
      rw [hrunning, if_pos hreads, hmitm]
      rfl
    have hm₁ : mitm.threads.members[i]? = some ⟨h₁', m.written ++ out⟩ := by
      show (s.mitm.threads.members.modify i _)[i]? = _
      rw [List.getElem?_modify, hm]
      simp
    obtain ⟨mitm', m', hreaches, hm', hstate⟩ := @ih { s with mitm } hw ⟨h₁', m.written ++ out⟩ hm₁
      hrunning (fun e he => hes e (List.mem_cons_of_mem _ he)) hrest
    exact ⟨mitm', m', .step hproxy hreaches, hm', hstate⟩

/-- Only connection threads have gone on, and the thread `w` has returned. -/
structure KndMitmProxy.Returned (s t : KndMitmProxy) (w : Nat) : Prop where
  owner : t.owner = s.owner
  running : t.running = false
  returned : ∃ i, t.threads[w]? = some (.returned i)

theorem thread_reaches (h : s.Wf) (hrunning : s.running = false) {w : Nat}
    (hw : w < s.threads.length) : ∃ t, s.Reaches utf8ToUtf16 t ∧ s.Returned t w := by
  have hhandling : ∀ s : KndMitmProxy, s.Wf → s.running = false → ∀ i,
      s.threads[w]? = some (.handling i) → ∃ t, s.Reaches utf8ToUtf16 t ∧ s.Returned t w := by
    intro s h hrunning i hw
    have hm := List.getElem?_eq_getElem (h.handled.handler w i hw)
    obtain ⟨es, h', hes, hrun, hfinished⟩ :=
      @Handler.Working.canFinish utf8ToUtf16 _ (h.working _ (List.mem_of_getElem? hm))
    obtain ⟨mitm, m', hreaches, hm', rfl⟩ := handles_reaches hw hm hrunning hes hrun
    refine ⟨{ s with mitm, threads := s.threads.set w (.returned i), active := s.active - 1 },
      hreaches.trans (.step (e := .returns w) ?_ (.refl _)), rfl, hrunning, i, ?_⟩
    · simp only [KndMitmProxy.step, KndMitmProxy.returns, hw, hm', hfinished, if_true]
    · exact List.getElem?_set_self (List.getElem?_eq_some_iff.mp hw).1
  have hcounted : ∀ s : KndMitmProxy, s.Wf → s.running = false →
      s.threads[w]? = some .counted → ∃ t, s.Reaches utf8ToUtf16 t ∧ s.Returned t w := by
    intro s h hrunning hw
    obtain ⟨m, hm⟩ : ∃ m, s.step utf8ToUtf16 (.begins w) = some m := by
      simp only [KndMitmProxy.step, KndMitmProxy.begins, hw]
      exact ⟨_, rfl⟩
    have hm' := hm
    simp only [KndMitmProxy.step, KndMitmProxy.begins, hw] at hm'
    obtain rfl := Option.some.inj hm'
    obtain ⟨t, hreaches, ht⟩ := hhandling _ (h.step hm) hrunning _
      (List.getElem?_set_self (List.getElem?_eq_some_iff.mp hw).1)
    exact ⟨t, .step hm hreaches, ht.owner, ht.running, ht.returned⟩
  cases hth : s.threads[w] with
  | created =>
    have hw' : s.threads[w]? = some .created := by rw [List.getElem?_eq_getElem hw, hth]
    have hm : s.step utf8ToUtf16 (.begins w) =
        some { s with threads := s.threads.set w .counted, active := s.active + 1 } := by
      simp only [KndMitmProxy.step, KndMitmProxy.begins, hw']
    obtain ⟨t, hreaches, ht⟩ := hcounted _ (h.step hm) hrunning (List.getElem?_set_self hw)
    exact ⟨t, .step hm hreaches, ht.owner, ht.running, ht.returned⟩
  | counted => exact hcounted s h hrunning (by rw [List.getElem?_eq_getElem hw, hth])
  | handling i => exact hhandling s h hrunning i (by rw [List.getElem?_eq_getElem hw, hth])
  | returned i =>
    exact ⟨s, .refl s, rfl, hrunning, i, by rw [List.getElem?_eq_getElem hw, hth]⟩

theorem joining_reaches (ws : List Nat) (h : s.Wf) (howner : s.owner = .joining ws)
    (hrunning : s.running = false) :
    ∃ t, s.Reaches utf8ToUtf16 t ∧ t.owner = .idle ∧ t.running = false := by
  induction ws generalizing s with
  | nil =>
    refine ⟨{ s with owner := .idle }, .step (e := .stopping) ?_ (.refl _), rfl, hrunning⟩
    simp only [KndMitmProxy.step, KndMitmProxy.stopping, howner]
  | cons w ws ih =>
    have hmem : w ∈ s.toJoin := by simp [KndMitmProxy.toJoin, howner, Owner.waits]
    obtain ⟨m, hreaches, hm⟩ := @thread_reaches utf8ToUtf16 _ h hrunning _
      (h.known w hmem)
    obtain ⟨i, hi⟩ := hm.returned
    have hstep : m.step utf8ToUtf16 .stopping = some { m with owner := .joining ws } := by
      simp only [KndMitmProxy.step, KndMitmProxy.stopping, hm.owner, howner, hi]
    obtain ⟨t, hrest, ht⟩ := ih ((h.reaches hreaches).step hstep) rfl hm.running
    exact ⟨t, hreaches.trans (.step hstep hrest), ht⟩

theorem listener_reaches (hrunning : s.running = false) (hjoinable : s.listener ≠ .notJoinable) :
    ∃ t, s.Reaches utf8ToUtf16 t ∧ t.owner = s.owner ∧ t.running = false ∧
      t.listener = .returned := by
  have hhead : ∀ s : KndMitmProxy, s.running = false → s.listener = .atHead →
      ∃ t, s.Reaches utf8ToUtf16 t ∧ t.owner = s.owner ∧ t.running = false ∧
        t.listener = .returned := by
    intro s hrunning hlistener
    refine ⟨{ s with listener := .returned }, .step (e := .listens false) ?_ (.refl _), rfl,
      hrunning, rfl⟩
    simp [KndMitmProxy.step, KndMitmProxy.listenLoop, hlistener, hrunning]
  cases hlistener : s.listener with
  | notJoinable => exact absurd hlistener hjoinable
  | atHead => exact hhead s hrunning hlistener
  | selecting =>
    refine ⟨{ s with listener := .returned }, .step (e := .listens false) ?_ (.refl _), rfl,
      hrunning, rfl⟩
    simp [KndMitmProxy.step, KndMitmProxy.listenLoop, hlistener, hrunning]
  | accepting =>
    have hstep : s.step utf8ToUtf16 (.listens false) = some { s with listener := .atHead } := by
      simp [KndMitmProxy.step, KndMitmProxy.listenLoop, hlistener]
    obtain ⟨t, hreaches, ht⟩ := hhead { s with listener := .atHead } hrunning rfl
    exact ⟨t, .step hstep hreaches, ht⟩
  | spawning =>
    let m : KndMitmProxy :=
      { s with
        threads := s.threads ++ [.created]
        connThreads := s.connThreads ++ [s.threads.length]
        listener := .atHead }
    have hstep : s.step utf8ToUtf16 (.listens false) = some m := by
      simp [m, KndMitmProxy.step, KndMitmProxy.listenLoop, hlistener]
    obtain ⟨t, hreaches, ht⟩ := hhead m hrunning rfl
    exact ⟨t, .step hstep hreaches, ht⟩
  | returned => exact ⟨s, .refl s, rfl, hrunning, hlistener⟩

theorem KndMitmProxy.Wf.can_return (h : s.Wf) (hstopping : s.owner ≠ .idle) :
    ∃ t, s.Reaches utf8ToUtf16 t ∧ t.owner = .idle ∧ t.running = false := by
  have hswapping : ∀ s : KndMitmProxy, s.Wf → s.owner = .swapping → s.running = false →
      ∃ t, s.Reaches utf8ToUtf16 t ∧ t.owner = .idle ∧ t.running = false := by
    intro s h howner hrunning
    have hstep : s.step utf8ToUtf16 .stopping =
        some { s with connThreads := [], owner := .joining s.connThreads } := by
      simp only [KndMitmProxy.step, KndMitmProxy.stopping, howner]
    obtain ⟨t, hreaches, ht⟩ := joining_reaches s.connThreads (h.step hstep) rfl hrunning
    exact ⟨t, .step hstep hreaches, ht⟩
  have hjoining : ∀ s : KndMitmProxy, s.Wf → s.owner = .joiningListener →
      ∃ t, s.Reaches utf8ToUtf16 t ∧ t.owner = .idle ∧ t.running = false := by
    intro s h howner
    have howned := h.owned
    simp only [KndMitmProxy.Owned, howner] at howned
    obtain ⟨m, hreaches, hm, hrunning, hreturned⟩ :=
      @listener_reaches utf8ToUtf16 _ howned.1 howned.2
    have hstep : m.step utf8ToUtf16 .stopping =
        some { m with listener := .notJoinable, owner := .swapping } := by
      simp only [KndMitmProxy.step, KndMitmProxy.stopping, hm, howner, hreturned]
    obtain ⟨t, hrest, ht⟩ := hswapping _ ((h.reaches hreaches).step hstep) rfl hrunning
    exact ⟨t, hreaches.trans (.step hstep hrest), ht⟩
  have howned := h.owned
  cases howner : s.owner with
  | idle => exact absurd howner hstopping
  | closing =>
    have hstep : s.step utf8ToUtf16 .stopping =
        some { s with listening := false, owner := .joiningListener } := by
      simp only [KndMitmProxy.step, KndMitmProxy.stopping, howner]
    obtain ⟨t, hreaches, ht⟩ := hjoining _ (h.step hstep) rfl
    exact ⟨t, .step hstep hreaches, ht⟩
  | joiningListener => exact hjoining s h howner
  | swapping =>
    simp only [KndMitmProxy.Owned, howner] at howned
    exact hswapping s h howner howned.1
  | joining ws =>
    simp only [KndMitmProxy.Owned, howner] at howned
    exact joining_reaches ws h howner howned.1

/-- Wherever it is, `stop` can return, and from the exchange to the next `start` at most one more
connection gets a thread. -/
theorem stop_returns {es : List ProxyEvent}
    (hrun : runEvents (KndMitmProxy.step utf8ToUtf16) .fresh es = some s) :
    (s.owner ≠ .idle → ∃ rest t, runEvents (KndMitmProxy.step utf8ToUtf16) s rest = some t ∧
      t.owner = .idle ∧ t.running = false) ∧
      (s.running = false → ∀ rest t, (∀ e ∈ rest, ∀ caReady bound, e ≠ .start caReady bound) →
        runEvents (KndMitmProxy.step utf8ToUtf16) s rest = some t →
        t.threads.length ≤ s.threads.length + 1) := by
  have hwf : s.Wf := fresh_wf.reaches ⟨es, fun _ _ => trivial, hrun⟩
  refine ⟨fun hstopping => ?_, fun hrunning rest t hrest ht => ?_⟩
  · obtain ⟨t, ⟨rest, -, hrest⟩, ht⟩ := hwf.can_return hstopping
    exact ⟨rest, t, hrest, ht⟩
  · have hadmitted : t.running = false ∧ t.admitted ≤ s.admitted := by
      refine @runEvents_invariant _ _ (KndMitmProxy.step utf8ToUtf16)
        (fun e => ∀ caReady bound, e ≠ .start caReady bound)
        (fun t => t.running = false ∧ t.admitted ≤ s.admitted) ?_ _ _ _ ⟨hrunning, Nat.le_refl _⟩
        hrest ht
      intro m e m' hstart hm hstep
      obtain ⟨hstopped, hle⟩ := KndMitmProxy.step_admitted hm.1 hstart hstep
      exact ⟨hstopped, Nat.le_trans hle hm.2⟩
    have hle := hadmitted.2
    have hone : s.admitted ≤ s.threads.length + 1 := by
      unfold KndMitmProxy.admitted
      split <;> omega
    exact Nat.le_trans (Nat.le_trans (Nat.le_add_right ..) hle) hone

end

/-- A connection is accepted behind the exchange in `stop`, and gets its thread behind the socket. -/
def acceptedLate : List ProxyEvent :=
  [.start true true, .listens true, .listens true, .stop, .listens true, .stopping, .listens true,
    .begins 0, .begins 0, .handles 0 .broke, .handles 0 (.closes 0), .returns 0]

theorem stop_returns_acceptedLate : ∃ s t : KndMitmProxy,
    runEvents (KndMitmProxy.step fun bs => bs.map UInt8.toUInt16) .fresh (acceptedLate.take 4) =
      some s ∧
      runEvents (KndMitmProxy.step fun bs => bs.map UInt8.toUInt16) s (acceptedLate.drop 4) =
        some t ∧
      s.threads.length = 0 ∧ t.threads.length ≤ s.threads.length + 1 ∧ t.threads.length = 1 ∧
      ∃ rest u, runEvents (KndMitmProxy.step fun bs => bs.map UInt8.toUInt16) s rest = some u ∧
        u.owner = .idle ∧ u.running = false := by
  obtain ⟨s, hs⟩ : ∃ s, runEvents (KndMitmProxy.step fun bs => bs.map UInt8.toUInt16) .fresh
    (acceptedLate.take 4) = some s := Option.isSome_iff_exists.mp (by decide +kernel)
  have hend : (runEvents (KndMitmProxy.step fun bs => bs.map UInt8.toUInt16) .fresh
      (acceptedLate.take 4)).map (fun s => (s.owner, s.running, s.threads.length)) =
        some (.closing, false, 0) := by decide +kernel
  have hmore : ((runEvents (KndMitmProxy.step fun bs => bs.map UInt8.toUInt16) .fresh
      (acceptedLate.take 4)).bind fun s => runEvents (KndMitmProxy.step
        fun bs => bs.map UInt8.toUInt16) s (acceptedLate.drop 4)).map (fun t => t.threads.length) =
        some 1 := by decide +kernel
  rw [hs] at hend hmore
  obtain ⟨howner, hrest⟩ := Prod.mk.inj (Option.some.inj hend)
  obtain ⟨hrunning, hnone⟩ := Prod.mk.inj hrest
  obtain ⟨t, ht, hone⟩ := Option.map_eq_some_iff.mp hmore
  obtain ⟨hreturns, hfew⟩ := stop_returns hs
  refine ⟨s, t, hs, ht, hnone, hfew hrunning _ t ?_ ht, hone, hreturns ?_⟩
  · intro e he caReady bound heq
    simp [acceptedLate, heq] at he
  · rw [howner]
    nofun

end NetDebugger.Proxy
