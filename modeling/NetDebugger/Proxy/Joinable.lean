import NetDebugger.Proxy.Threads

/-! What the threads of the proxy keep.  A thread object is joinable from its start until `stop` has
joined it, each thread that is not at its end is going to be joined, the counters count, and the
socket is open only while the flag is set or `stop` is about to close it. -/

namespace NetDebugger.Proxy

open Lib

/-- Where the owner is, and what that says of the listener and the list of threads. -/
def KndMitmProxy.Owned (s : KndMitmProxy) : Prop :=
  match s.owner with
  | .idle =>
    if s.running then s.listener ≠ .notJoinable ∧ s.listener ≠ .returned
    else s.listener = .notJoinable ∧ s.connThreads = []
  | .closing | .joiningListener => s.running = false ∧ s.listener ≠ .notJoinable
  | .swapping => s.running = false ∧ s.listener = .notJoinable
  | .joining _ => s.running = false ∧ s.listener = .notJoinable ∧ s.connThreads = []

/-- The threads that are going to be joined. -/
def KndMitmProxy.toJoin (s : KndMitmProxy) : List Nat := s.connThreads ++ s.owner.waits

/-- The connections that the listener has accepted without a thread for them yet. -/
def Listener.pending : Listener → Nat
  | .spawning => 1
  | _ => 0

/-- The handlers are those of the threads, and the handler of a thread that has returned is at its
end. -/
structure Handled (threads : List ConnThread) (handlers : List (Member Handler (List UInt8))) :
    Prop where
  thread : ∀ i < handlers.length, ∃ w : Nat,
    threads[w]? = some (.handling i) ∨ threads[w]? = some (.returned i)
  handler : ∀ (w : Nat) i, threads[w]? = some (.handling i) → i < handlers.length
  finished : ∀ (w : Nat) i, threads[w]? = some (.returned i) →
    ∃ m, handlers[i]? = some m ∧ m.state.phase.isFinished = true

/-- A relay that has ended is no longer relaying. -/
def Handler.Working (h : Handler) : Prop := ∀ r, h.phase = .relaying r → r.phase ≠ .ended

structure KndMitmProxy.Wf (s : KndMitmProxy) : Prop where
  terminated : s.terminated = false
  owned : s.Owned
  attached : ∀ (w : Nat) th, s.threads[w]? = some th → (∀ i, th ≠ .returned i) → w ∈ s.toJoin
  known : ∀ w ∈ s.toJoin, w < s.threads.length
  conns : s.conns = UInt64.ofNat (s.threads.length + s.listener.pending)
  active : s.active = UInt64.ofNat (s.threads.countP (·.isActive))
  handled : Handled s.threads s.mitm.threads.members
  working : ∀ m ∈ s.mitm.threads.members, m.state.Working
  socket : s.listening = true → s.running = true ∨ s.owner = .closing

theorem handled_nil : Handled [] [] where
  thread := fun i hi => absurd hi (Nat.not_lt_zero i)
  handler := by
    intro w i h
    cases h
  finished := by
    intro w i h
    cases h

theorem fresh_wf : KndMitmProxy.fresh.Wf where
  terminated := rfl
  owned := ⟨rfl, rfl⟩
  attached := by
    intro w th h
    cases h
  known := nofun
  conns := rfl
  active := rfl
  handled := handled_nil
  working := nofun
  socket := nofun

section

variable {utf8ToUtf16 : List UInt8 → List UInt16} {s t : KndMitmProxy}

/-! ### The interface -/

theorem KndMitmProxy.Wf.start (h : s.Wf) (hidle : s.owner = .idle) (caReady bound : Bool) :
    (s.start caReady bound).Wf := by
  unfold KndMitmProxy.start
  split
  · exact h
  next hrefused =>
  have hrunning : s.running = false := by
    cases hr : s.running with
    | true => simp [hr] at hrefused
    | false => rfl
  have howned := h.owned
  simp only [KndMitmProxy.Owned, hidle, hrunning, Bool.false_eq_true, if_false] at howned
  obtain ⟨hlistener, -⟩ := howned
  have hconns := h.conns
  rw [hlistener] at hconns
  refine ⟨?_, ?_, h.attached, h.known, hconns, h.active, h.handled, h.working, fun _ => .inl rfl⟩
  · show (s.terminated || decide (s.listener ≠ .notJoinable)) = false
    simp [h.terminated, hlistener]
  · simp [KndMitmProxy.Owned, hidle]

theorem KndMitmProxy.Wf.stop (h : s.Wf) (hidle : s.owner = .idle) : s.stop.Wf := by
  unfold KndMitmProxy.stop
  split
  · next hrunning =>
    have howned := h.owned
    simp only [KndMitmProxy.Owned, hidle, hrunning, if_true] at howned
    have hattached := h.attached
    have hknown := h.known
    simp only [KndMitmProxy.toJoin, hidle] at hattached hknown
    exact ⟨h.terminated, ⟨rfl, howned.1⟩, hattached, hknown, h.conns, h.active, h.handled, h.working,
      fun _ => .inr rfl⟩
  · exact h

/-- The socket of a proxy without the flag is closed, where `stop` is not about to close it. -/
theorem KndMitmProxy.Wf.closed (h : s.Wf) (hrunning : s.running = false) (howner : s.owner ≠ .closing) :
    s.listening = false := by
  refine eq_false_of_ne_true fun hlistening => ?_
  rcases h.socket hlistening with hrun | hclosing
  · exact Bool.false_ne_true (hrunning.symm.trans hrun)
  · exact howner hclosing

theorem KndMitmProxy.Wf.stopping (h : s.Wf) (hstep : s.stopping = some t) : t.Wf := by
  unfold KndMitmProxy.stopping at hstep
  have howned := h.owned
  have hattached := h.attached
  have hknown := h.known
  cases howner : s.owner with
  | idle =>
    rw [howner] at hstep
    contradiction
  | closing =>
    simp only [KndMitmProxy.Owned, KndMitmProxy.toJoin, howner] at howned hattached hknown hstep
    obtain rfl := Option.some.inj hstep
    exact ⟨h.terminated, howned, hattached, hknown, h.conns, h.active, h.handled, h.working, nofun⟩
  | joiningListener =>
    simp only [KndMitmProxy.Owned, KndMitmProxy.toJoin, howner] at howned hattached hknown hstep
    have hconns := h.conns
    split at hstep
    · next hlistener => exact absurd hlistener howned.2
    · next hlistener =>
      obtain rfl := Option.some.inj hstep
      rw [hlistener] at hconns
      exact ⟨h.terminated, ⟨howned.1, rfl⟩, hattached, hknown, hconns, h.active, h.handled, h.working,
        by simp [h.closed howned.1 (by simp [howner])]⟩
    · contradiction
  | swapping =>
    simp only [KndMitmProxy.Owned, KndMitmProxy.toJoin, howner, Owner.waits,
      List.append_nil] at howned hattached hknown hstep
    obtain rfl := Option.some.inj hstep
    exact ⟨h.terminated, ⟨howned.1, howned.2, rfl⟩, hattached, hknown, h.conns, h.active,
      h.handled, h.working, by simp [h.closed howned.1 (by simp [howner])]⟩
  | joining threads =>
    simp only [KndMitmProxy.Owned, KndMitmProxy.toJoin, howner, Owner.waits] at howned hattached hknown
    obtain ⟨hrunning, hlistener, hnone⟩ := howned
    have hclosed := h.closed hrunning (by simp [howner])
    rw [hnone, List.nil_append] at hattached hknown
    rw [howner] at hstep
    cases threads with
    | nil =>
      obtain rfl := Option.some.inj hstep
      refine ⟨h.terminated, ?_, ?_, ?_, h.conns, h.active, h.handled, h.working,
        by simp [hclosed]⟩
      · simp [KndMitmProxy.Owned, hrunning, hlistener, hnone]
      · simpa only [KndMitmProxy.toJoin, hnone, Owner.waits, List.append_nil] using hattached
      · simpa only [KndMitmProxy.toJoin, hnone, Owner.waits, List.append_nil] using hknown
    | cons w threads =>
      simp only at hstep
      split at hstep
      · next i hreturned =>
        obtain rfl := Option.some.inj hstep
        refine ⟨h.terminated, ⟨hrunning, hlistener, hnone⟩, ?_, ?_, h.conns, h.active, h.handled,
          h.working, by simp [hclosed]⟩
        · intro v th hv hth
          simp only [KndMitmProxy.toJoin, hnone, List.nil_append, Owner.waits]
          rcases List.mem_cons.mp (hattached v th hv hth) with rfl | hmem
          · exact absurd (Option.some.inj (hv.symm.trans hreturned)) (hth i)
          · exact hmem
        · simp only [KndMitmProxy.toJoin, hnone, List.nil_append, Owner.waits]
          exact fun v hv => hknown v (List.mem_cons_of_mem _ hv)
      · contradiction

/-! ### The listener -/

theorem KndMitmProxy.Owned.listener (h : s.Owned) (hlistener : s.listener ≠ .notJoinable) :
    s.owner = .idle ∧ s.running = true ∨
      (s.owner = .closing ∨ s.owner = .joiningListener) ∧ s.running = false := by
  unfold KndMitmProxy.Owned at h
  split at h
  · next hidle =>
    split at h
    · next hrunning => exact .inl ⟨hidle, hrunning⟩
    · exact absurd h.1 hlistener
  · next hclosing => exact .inr ⟨.inl hclosing, h.1⟩
  · next hjoining => exact .inr ⟨.inr hjoining, h.1⟩
  · exact absurd h.2 hlistener
  · exact absurd h.2.1 hlistener

/-- A listener that goes on while the flag is set, or that goes anywhere when it is not. -/
theorem KndMitmProxy.Owned.set (h : s.Owned) (hlistener : s.listener ≠ .notJoinable)
    (ht : t.owner = s.owner ∧ t.running = s.running ∧ t.listener ≠ .notJoinable)
    (hreturned : s.running = true → t.listener ≠ .returned) : t.Owned := by
  obtain ⟨howner, hrunning, hjoinable⟩ := ht
  unfold KndMitmProxy.Owned
  rcases h.listener hlistener with ⟨hidle, hrun⟩ | ⟨hclosing | hjoining, hrun⟩
  · rw [howner, hidle, hrunning, hrun]
    exact ⟨hjoinable, hreturned hrun⟩
  · rw [howner, hclosing]
    exact ⟨hrunning.trans hrun, hjoinable⟩
  · rw [howner, hjoining]
    exact ⟨hrunning.trans hrun, hjoinable⟩

/-- A thread that is added is not yet one of the handlers. -/
theorem Handled.spawn {threads : List ConnThread} {handlers : List (Member Handler (List UInt8))}
    (h : Handled threads handlers) : Handled (threads ++ [.created]) handlers := by
  have hold : ∀ (w : Nat) th, (threads ++ [.created])[w]? = some th → th ≠ .created →
      threads[w]? = some th := by
    intro w th hw hne
    rw [List.getElem?_append] at hw
    split at hw
    · exact hw
    · exact absurd (List.mem_singleton.mp (List.mem_of_getElem? hw)) hne
  refine ⟨fun i hi => ?_, fun w i hw => h.handler w i (hold w _ hw nofun),
    fun w i hw => h.finished w i (hold w _ hw nofun)⟩
  obtain ⟨w, hw | hw⟩ := h.thread i hi
  · exact ⟨w, .inl ((List.getElem?_append_left (List.getElem?_eq_some_iff.mp hw).1).trans hw)⟩
  · exact ⟨w, .inr ((List.getElem?_append_left (List.getElem?_eq_some_iff.mp hw).1).trans hw)⟩

theorem KndMitmProxy.Wf.listenLoop (h : s.Wf) {outcome : Bool}
    (hstep : s.listenLoop outcome = some t) : t.Wf := by
  unfold KndMitmProxy.listenLoop at hstep
  have hconns := h.conns
  cases hlistener : s.listener with
  | notJoinable | returned =>
    rw [hlistener] at hstep
    contradiction
  | atHead =>
    simp only [hlistener, Listener.pending] at hstep hconns
    obtain rfl := Option.some.inj hstep
    refine ⟨h.terminated, h.owned.set (by simp [hlistener]) ⟨rfl, rfl, ?_⟩ ?_, h.attached, h.known,
      ?_, h.active, h.handled, h.working, h.socket⟩
    · dsimp only
      split <;> decide
    · intro hrunning
      simp [hrunning]
    · dsimp only
      split <;> exact hconns
  | selecting =>
    simp only [hlistener, Listener.pending] at hstep hconns
    obtain rfl := Option.some.inj hstep
    refine ⟨h.terminated, h.owned.set (by simp [hlistener]) ⟨rfl, rfl, ?_⟩ ?_, h.attached, h.known,
      ?_, h.active, h.handled, h.working, h.socket⟩
    · dsimp only
      split
      · decide
      · split <;> decide
    · intro hrunning
      simp only [hrunning, Bool.not_true, Bool.false_eq_true, if_false]
      split <;> decide
    · dsimp only
      split
      · exact hconns
      · split <;> exact hconns
  | accepting =>
    simp only [hlistener, Listener.pending] at hstep hconns
    split at hstep
    · obtain rfl := Option.some.inj hstep
      refine ⟨h.terminated, h.owned.set (by simp [hlistener]) ⟨rfl, rfl, nofun⟩ nofun, h.attached,
        h.known, ?_, h.active, h.handled, h.working, h.socket⟩
      show s.conns + 1 = UInt64.ofNat (s.threads.length + 1)
      rw [hconns, Nat.add_zero, UInt64.ofNat_add]
      rfl
    · obtain rfl := Option.some.inj hstep
      exact ⟨h.terminated, h.owned.set (by simp [hlistener]) ⟨rfl, rfl, nofun⟩ nofun, h.attached,
        h.known, hconns, h.active, h.handled, h.working, h.socket⟩
  | spawning =>
    simp only [hlistener, Listener.pending] at hstep hconns
    obtain rfl := Option.some.inj hstep
    refine ⟨h.terminated, h.owned.set (by simp [hlistener]) ⟨rfl, rfl, nofun⟩ nofun, ?_, ?_, ?_, ?_,
      h.handled.spawn, h.working, h.socket⟩
    · intro w th hw hth
      rw [List.getElem?_append] at hw
      split at hw
      · have hmem := h.attached w th hw hth
        simp only [KndMitmProxy.toJoin, List.mem_append] at hmem ⊢
        exact hmem.imp_left Or.inl
      · next hlen =>
        have hw' : w = s.threads.length := by
          have hlt := (List.getElem?_eq_some_iff.mp hw).1
          rw [List.length_singleton] at hlt
          omega
        subst hw'
        simp [KndMitmProxy.toJoin]
    · intro w hw
      simp only [KndMitmProxy.toJoin, List.mem_append, List.mem_singleton] at hw
      rw [List.length_append, List.length_singleton]
      rcases hw with (hw | rfl) | hw
      · exact Nat.lt_succ_of_lt (h.known w (List.mem_append_left _ hw))
      · exact Nat.lt_succ_self _
      · exact Nat.lt_succ_of_lt (h.known w (List.mem_append_right _ hw))
    · simpa [Listener.pending] using hconns
    · simpa [List.countP_append, ConnThread.isActive] using h.active

/-! ### The connection threads -/

theorem isActive_set {threads : List ConnThread} {w : Nat} {th : ConnThread}
    (hw : threads[w]? = some th) (th' : ConnThread) :
    (threads.set w th').countP (·.isActive) + (if th.isActive then 1 else 0) =
      threads.countP (·.isActive) + if th'.isActive then 1 else 0 := by
  obtain ⟨hlt, rfl⟩ := List.getElem?_eq_some_iff.mp hw
  rw [List.countP_set hlt]
  by_cases hactive : threads[w].isActive = true
  · have hpos : 0 < threads.countP (·.isActive) :=
      List.countP_pos_iff.mpr ⟨threads[w], List.getElem_mem hlt, hactive⟩
    rw [if_pos hactive]
    omega
  · rw [if_neg hactive]
    rfl

/-- A thread takes a step. -/
theorem KndMitmProxy.Wf.set (h : s.Wf) {w : Nat} {th th' : ConnThread}
    (hw : s.threads[w]? = some th) (hth : ∀ i, th ≠ .returned i) {active : UInt64} {mitm : Mitm}
    (hactive : active = UInt64.ofNat ((s.threads.set w th').countP (·.isActive)))
    (hhandled : Handled (s.threads.set w th') mitm.threads.members)
    (hworking : ∀ m ∈ mitm.threads.members, m.state.Working) :
    ({ s with threads := s.threads.set w th', active, mitm } : KndMitmProxy).Wf := by
  refine ⟨h.terminated, h.owned, fun v th'' hv hth'' => ?_, fun v hv => ?_, ?_, hactive, hhandled,
    hworking, h.socket⟩
  · show v ∈ s.toJoin
    rw [List.getElem?_set] at hv
    split at hv
    · next hwv => exact hwv ▸ h.attached w th hw hth
    · exact h.attached v th'' hv hth''
  · rw [List.length_set]
    exact h.known v hv
  · rw [List.length_set]
    exact h.conns

/-- The other threads, when one that is no handler yet steps on. -/
theorem set_ne {threads : List ConnThread} {w v : Nat} {th th' th'' : ConnThread}
    (hw : threads[w]? = some th) (hv : threads[v]? = some th'') (hne : th'' ≠ th) :
    (threads.set w th')[v]? = some th'' := by
  rw [List.getElem?_set_ne]
  · exact hv
  · rintro rfl
    exact hne (Option.some.inj (hv.symm.trans hw))

/-- What a changed list of threads says of an entry other than the new one. -/
theorem of_set {threads : List ConnThread} {w v : Nat} {th' th'' : ConnThread}
    (hv : (threads.set w th')[v]? = some th'') (hne : th'' ≠ th') : threads[v]? = some th'' := by
  rw [List.getElem?_set] at hv
  split at hv
  · split at hv
    · exact absurd (Option.some.inj hv).symm hne
    · contradiction
  · exact hv

theorem Handled.counted {threads : List ConnThread} {handlers : List (Member Handler (List UInt8))}
    (h : Handled threads handlers) {w : Nat} (hw : threads[w]? = some .created) :
    Handled (threads.set w .counted) handlers := by
  refine ⟨fun i hi => ?_, fun v i hv => h.handler v i (of_set hv nofun),
    fun v i hv => h.finished v i (of_set hv nofun)⟩
  obtain ⟨v, hv | hv⟩ := h.thread i hi
  · exact ⟨v, .inl (set_ne hw hv nofun)⟩
  · exact ⟨v, .inr (set_ne hw hv nofun)⟩

/-- A thread enters the pool as its last handler. -/
theorem Handled.entered {threads : List ConnThread} {handlers : List (Member Handler (List UInt8))}
    (h : Handled threads handlers) {w : Nat} (hw : threads[w]? = some .counted)
    (m : Member Handler (List UInt8)) :
    Handled (threads.set w (.handling handlers.length)) (handlers ++ [m]) := by
  have hlt : w < threads.length := (List.getElem?_eq_some_iff.mp hw).1
  refine ⟨fun i hi => ?_, fun v i hv => ?_, fun v i hv => ?_⟩
  · rw [List.length_append, List.length_singleton] at hi
    rcases Nat.lt_succ_iff_lt_or_eq.mp hi with hi | rfl
    · obtain ⟨v, hv | hv⟩ := h.thread i hi
      · exact ⟨v, .inl (set_ne hw hv nofun)⟩
      · exact ⟨v, .inr (set_ne hw hv nofun)⟩
    · exact ⟨w, .inl (List.getElem?_set_self hlt)⟩
  · rw [List.length_append, List.length_singleton]
    by_cases hi : i = handlers.length
    · omega
    · have hne : ConnThread.handling i ≠ .handling handlers.length := by simpa using hi
      exact Nat.lt_succ_of_lt (h.handler v i (of_set hv hne))
  · obtain ⟨m', hm', hfinished⟩ := h.finished v i (of_set hv nofun)
    exact ⟨m', (List.getElem?_append_left (List.getElem?_eq_some_iff.mp hm').1).trans hm', hfinished⟩

/-- A handler that is not at its end takes a step. -/
theorem Handled.act {threads : List ConnThread} {p : Pool Handler (List UInt8)}
    (h : Handled threads p.members) {i : Nat} {m : Member Handler (List UInt8)}
    (hm : p.members[i]? = some m) (hgoing : m.state.phase.isFinished = false) (h' : Handler)
    (out : List (List UInt8)) : Handled threads (p.act i h' out).members := by
  have hlen : (p.act i h' out).members.length = p.members.length := List.length_modify ..
  refine ⟨fun j hj => h.thread j (hlen ▸ hj), fun w j hw => hlen ▸ h.handler w j hw,
    fun w j hw => ?_⟩
  obtain ⟨m', hm', hfinished⟩ := h.finished w j hw
  refine ⟨m', ?_, hfinished⟩
  have hij : i ≠ j := by
    rintro rfl
    obtain rfl := Option.some.inj (hm.symm.trans hm')
    exact Bool.false_ne_true (hgoing.symm.trans hfinished)
  show (p.members.modify i _)[j]? = some m'
  rw [List.getElem?_modify, hm']
  simp only [if_neg hij, Option.map_eq_map, Option.map_id']

theorem Handled.returned {threads : List ConnThread} {handlers : List (Member Handler (List UInt8))}
    (h : Handled threads handlers) {w i : Nat} (hw : threads[w]? = some (.handling i))
    {m : Member Handler (List UInt8)} (hm : handlers[i]? = some m)
    (hfinished : m.state.phase.isFinished = true) :
    Handled (threads.set w (.returned i)) handlers := by
  have hlt : w < threads.length := (List.getElem?_eq_some_iff.mp hw).1
  refine ⟨fun j hj => ?_, fun v j hv => h.handler v j (of_set hv nofun), fun v j hv => ?_⟩
  · obtain ⟨v, hv⟩ := h.thread j hj
    by_cases hvw : w = v
    · subst hvw
      refine ⟨w, .inr ?_⟩
      rw [List.getElem?_set_self hlt]
      rcases hv with hv | hv <;> cases hw.symm.trans hv
      rfl
    · exact ⟨v, by rwa [List.getElem?_set_ne hvw]⟩
  · by_cases hvj : ConnThread.returned j = .returned i
    · obtain rfl := ConnThread.returned.inj hvj
      exact ⟨m, hm, hfinished⟩
    · exact h.finished v j (of_set hv hvj)

/-- A handler at its end takes no step. -/
theorem Handler.step_going {h h' : Handler} {e : HandlerEvent} {out : List (List UInt8)}
    (hstep : h.step utf8ToUtf16 e = some (h', out)) : h.phase.isFinished = false := by
  cases hphase : h.phase with
  | finished opened =>
    unfold Handler.step at hstep
    rw [hphase] at hstep
    contradiction
  | _ => rfl

theorem Handler.step_working {h h' : Handler} {e : HandlerEvent} {out : List (List UInt8)}
    (hstep : h.step utf8ToUtf16 e = some (h', out)) : h'.Working := by
  intro r hr
  unfold Handler.step at hstep
  split at hstep
  case h_6 =>
    obtain ⟨u, -, heq⟩ := Option.map_eq_some_iff.mp hstep
    obtain ⟨rfl, -⟩ := Prod.mk.inj heq
    dsimp only at hr
    split at hr
    · contradiction
    · next hgoing => exact HandlerPhase.relaying.inj hr ▸ hgoing
  case h_5 =>
    obtain ⟨rfl, -⟩ := Prod.mk.inj (Option.some.inj hstep)
    exact HandlerPhase.relaying.inj hr ▸ nofun
  case h_8 => contradiction
  all_goals
    obtain ⟨rfl, -⟩ := Prod.mk.inj (Option.some.inj hstep)
    contradiction

theorem KndMitmProxy.Wf.begins (h : s.Wf) {w : Nat} (hstep : s.begins utf8ToUtf16 w = some t) :
    t.Wf := by
  unfold KndMitmProxy.begins at hstep
  split at hstep
  · next hw =>
    obtain rfl := Option.some.inj hstep
    have hcount : (s.threads.set w .counted).countP (·.isActive) =
        s.threads.countP (·.isActive) + 1 := isActive_set hw .counted
    refine h.set hw nofun ?_ (h.handled.counted hw) h.working
    rw [hcount, h.active, UInt64.ofNat_add]
    rfl
  · next hw =>
    obtain ⟨mitm, hmitm, heq⟩ := Option.bind_eq_some_iff.mp hstep
    obtain rfl := Option.some.inj heq
    obtain rfl := Option.some.inj hmitm
    have hcount : _ + 1 = s.threads.countP (·.isActive) + 1 :=
      isActive_set hw (.handling s.mitm.threads.members.length)
    refine h.set hw nofun ?_ (h.handled.entered hw _) fun m hm => ?_
    · rw [Nat.add_right_cancel hcount]
      exact h.active
    · rcases List.mem_append.mp hm with hm | hm
      · exact h.working m hm
      · obtain rfl := List.mem_singleton.mp hm
        exact nofun
  · contradiction

theorem KndMitmProxy.Wf.handles (h : s.Wf) {w : Nat} {e : HandlerEvent}
    (hstep : s.handles utf8ToUtf16 w e = some t) : t.Wf := by
  unfold KndMitmProxy.handles at hstep
  split at hstep
  · next i hw =>
    split at hstep
    · obtain ⟨mitm, hmitm, rfl⟩ := Option.map_eq_some_iff.mp hstep
      obtain ⟨m, hm, hrest⟩ := Option.bind_eq_some_iff.mp hmitm
      obtain ⟨⟨h', out⟩, hhandler, heq⟩ := Option.bind_eq_some_iff.mp hrest
      obtain rfl := Option.some.inj heq
      refine ⟨h.terminated, h.owned, h.attached, h.known, h.conns, h.active,
        h.handled.act hm (Handler.step_going hhandler) h' out, fun m' hm' => ?_, h.socket⟩
      obtain ⟨j, hj⟩ := List.mem_iff_getElem?.mp hm'
      rcases Pool.members_act hm hj with ⟨-, rfl⟩ | ⟨-, hold⟩
      · exact Handler.step_working hhandler
      · exact h.working m' (List.mem_of_getElem? hold)
    · contradiction
  · contradiction

theorem KndMitmProxy.Wf.returns (h : s.Wf) {w : Nat} (hstep : s.returns w = some t) : t.Wf := by
  unfold KndMitmProxy.returns at hstep
  split at hstep
  · next i hw =>
    split at hstep
    · next m hm =>
      split at hstep
      · next hfinished =>
        obtain rfl := Option.some.inj hstep
        have hcount : (s.threads.set w (.returned i)).countP (·.isActive) + 1 =
            s.threads.countP (·.isActive) := isActive_set hw (.returned i)
        refine h.set hw nofun ?_ (h.handled.returned hw hm hfinished) h.working
        rw [h.active, ← hcount, UInt64.ofNat_add]
        exact UInt64.add_sub_cancel _ _
      · contradiction
    · contradiction
  · contradiction

theorem KndMitmProxy.Wf.step (h : s.Wf) {e : ProxyEvent} (hstep : s.step utf8ToUtf16 e = some t) :
    t.Wf := by
  cases e with
  | start caReady bound =>
    simp only [KndMitmProxy.step] at hstep
    split at hstep
    · next hidle => exact Option.some.inj hstep ▸ h.start hidle caReady bound
    · contradiction
  | stop =>
    simp only [KndMitmProxy.step] at hstep
    split at hstep
    · next hidle => exact Option.some.inj hstep ▸ h.stop hidle
    · contradiction
  | stopping => exact h.stopping hstep
  | listens outcome => exact h.listenLoop hstep
  | begins w => exact h.begins hstep
  | handles w e => exact h.handles hstep
  | returns w => exact h.returns hstep
  | drain =>
    simp only [KndMitmProxy.step] at hstep
    split at hstep
    · obtain ⟨mitm, hmitm, rfl⟩ := Option.map_eq_some_iff.mp hstep
      obtain rfl := Option.some.inj hmitm
      exact ⟨h.terminated, h.owned, h.attached, h.known, h.conns, h.active, h.handled, h.working,
        h.socket⟩
    · contradiction

end

end NetDebugger.Proxy
