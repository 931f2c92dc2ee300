import NetDebugger.Inspector.Https
import NetDebugger.Model.Holds
import NetDebugger.Proxy.Queue

/-! The loop of `wWinMain` beside the threads of the proxy.  Each frame hands to the model what the
driver and the demo have, and then what the proxy has queued; then it is drawn, and the user selects,
clears or moves the cap.  A connection through the proxy is shown as the plaintext that its handler
read at both ends. -/

namespace NetDebugger

open Lib Http Tls Proxy Accounting

/-! ### The loop -/

/-- `mitmProxy`, and the window with `model`. -/
structure Shell where
  mitm : Mitm
  ui : Ui

inductive ShellEvent
  /-- The proxy accepts a connection, or one of its threads takes a step. -/
  | proxy (e : MitmEvent)
  /-- The beginning of a frame: the records of `KndClient::poll` and of `Mock_Pump`, and the drained
  queue. -/
  | takes (polled : List (Nat → UInt8)) (now : Nat)
  /-- `Ui_Frame`, or what the user does in it. -/
  | ui (e : UiEvent)

/-- What the records carry of a stream. -/
def carried (k : Stream) (records : List (List UInt8)) : List UInt8 :=
  concatenation k (records.map pointer)

section

variable (A : Gcm) (H : Hmac) (utf8ToUtf16 : List UInt8 → List UInt16)
  (utf16ToUtf8 : List UInt16 → List UInt8)

def KndModel.ingestEach (m : KndModel) (now : Nat) (ps : List (Nat → UInt8)) : KndModel :=
  ps.foldl (fun m p => m.ingest utf16ToUtf8 p now) m

def Shell.step (s : Shell) : ShellEvent → Option Shell
  | .proxy .drain => none
  | .proxy e => (s.mitm.step utf8ToUtf16 e).map fun mitm => { s with mitm }
  | .takes polled now =>
    (s.mitm.step utf8ToUtf16 .drain).map fun mitm =>
      let model := s.ui.model.ingestEach utf16ToUtf8 now (polled ++ s.mitm.queue.map pointer)
      { mitm, ui := { s.ui with model } }
  | .ui (.ingest _ _) => none
  | .ui e => (s.ui.step A H utf16ToUtf8 e).map fun ui => { s with ui }

def Shell.start : Shell := ⟨.start, .init⟩

/-- What a step of a handler reads in a direction. -/
def Proxy.Handler.reads (h : Handler) (e : HandlerEvent) (dir : Dir) : List UInt8 :=
  match h.phase, e with
  | .relaying r, .relays (.read (.data bytes) _) => if r.phase = .reading dir then bytes else []
  | _, _ => []

/-- What the handlers have read, by thread and direction, without what a clear has thrown away; the
least cap that anything of it was taken under; and what the caches were computed from. -/
structure Hearing where
  heard : Nat → Dir → List UInt8
  least : Nat
  watches : Watches

def Hearing.start : Hearing := ⟨fun _ _ => [], maxPayload, .start⟩

/-- A clear leaves what is still in the queue. -/
def Hearing.after (h : Hearing) (s : Shell) : ShellEvent → Hearing
  | .proxy (.thread i e) =>
    { h with
      heard := fun j dir =>
        h.heard j dir ++ if i = j then
          (s.mitm.threads.members[i]?).elim [] fun m => m.state.reads e dir
        else [] }
  | .proxy _ => h
  | .takes _ _ => { h with least := min h.least s.ui.model.payloadCap }
  | .ui .clear =>
    { heard := fun j dir => carried (flowId j, dir) s.mitm.queue
      least := maxPayload
      watches := h.watches.after s.ui .clear }
  | .ui e => { h with watches := h.watches.after s.ui e }

/-- No record of the driver or the demo is about a flow of the proxy. -/
def ShellEvent.Foreign : ShellEvent → Prop
  | .takes polled _ => ∀ p ∈ polled, ∀ i < 2 ^ 63, NetDebugger.recordFlow p ≠ some (flowId i)
  | _ => True

end

/-! ### What a handler pushes -/

theorem carried_append (k : Stream) (xs ys : List (List UInt8)) :
    carried k (xs ++ ys) = carried k xs ++ carried k ys := by
  simp [carried, concatenation]

/-- The two readings of a record tell the same flow. -/
theorem recordFlow_pointer {k : Stream} {record : List UInt8} (h : Feeds k (pointer record)) :
    Proxy.recordFlow record = k.1 := by
  obtain ⟨htype, rfl⟩ := h
  rw [Proxy.recordFlow, if_pos htype]

theorem carried_of_flow_ne {k : Stream} {records : List (List UInt8)}
    (h : ∀ record ∈ records, Proxy.recordFlow record ≠ k.1) : carried k records = [] := by
  refine List.flatMap_eq_nil_iff.mpr fun p hp => ?_
  obtain ⟨record, hrecord, rfl⟩ := List.mem_map.mp hp
  exact dataBytes_of_not_feeds fun hfeeds => h record hrecord (recordFlow_pointer hfeeds)

theorem carried_buildData (flow : UInt64) (dir dir' : Dir) {bytes : List UInt8} (now : UInt64)
    (hlen : bytes.length ≤ relaySize) :
    carried (flow, dir') [buildData flow (Dir.code dir) bytes now] =
      if dir = dir' then bytes else [] := by
  have hbytes := (feeds_of_at (buildData_at flow (Dir.code dir) now hlen) (flow, dir')).2
  have hstream : (flow, Dir.of (Dir.code dir)) = (flow, dir') ↔ dir = dir' := by
    rw [Dir.of_code, Prod.mk.injEq, and_iff_right rfl]
  simp only [carried, concatenation, List.map_singleton, List.flatMap_singleton, hbytes,
    Record.bytesFor, dataPayload, hstream]

section

variable {utf8ToUtf16 : List UInt8 → List UInt16} {utf16ToUtf8 : List UInt16 → List UInt8}

theorem carried_open (flow : UInt64) (dir : Dir) (certHost : List UInt8) (port : UInt16)
    (now : UInt64) : carried (flow, dir) [buildConnOpen utf8ToUtf16 flow certHost port now] = [] := by
  have hopen := dataBytes_of_at (buildConnOpen_at utf8ToUtf16 flow certHost port now) (flow, dir)
  exact (List.append_nil _).trans hopen

theorem carried_close (flow : UInt64) (dir : Dir) (now : UInt64) :
    carried (flow, dir) [buildConnClose flow now] = [] := by
  have hclose := dataBytes_of_at (buildConnClose_at flow now) (flow, dir)
  exact (List.append_nil _).trans hclose

/-- A handler pushes what it reads. -/
theorem Proxy.Handler.step_carries {h h' : Handler} {e : HandlerEvent} {out : List (List UInt8)}
    (hstep : h.step utf8ToUtf16 e = some (h', out)) (dir : Dir) :
    carried (h.flow, dir) out = h.reads e dir := by
  obtain ⟨flow, phase⟩ := h
  unfold Handler.step at hstep
  dsimp only at hstep
  split at hstep
  case h_1 | h_2 | h_3 | h_4 =>
    obtain ⟨-, rfl⟩ := Prod.mk.inj (Option.some.inj hstep)
    rfl
  case h_5 certHost port now =>
    obtain ⟨-, rfl⟩ := Prod.mk.inj (Option.some.inj hstep)
    exact carried_open flow dir certHost port now
  case h_6 r e =>
    obtain ⟨t, ht, heq⟩ := Option.map_eq_some_iff.mp hstep
    obtain ⟨-, rfl⟩ := Prod.mk.inj heq
    cases Relay.step_takes ht with
    | readData hphase hpos hlen =>
      rename_i d bytes now
      have hdrop : ((r.onRead flow d bytes now).transcript.pushed.drop r.transcript.pushed.length) =
          [buildData flow (Dir.code d) bytes now] := List.drop_left
      rw [hdrop, carried_buildData flow d dir now hlen]
      simp only [Handler.reads, hphase, RelayPhase.reading.injEq]
    | _ => simp [carried, concatenation, Handler.reads, Relay.onCheck, Relay.onFailedWrite,
        Relay.onWrote, Transcript.fail, Transcript.wrote]
  case h_7 opened now =>
    obtain ⟨-, rfl⟩ := Prod.mk.inj (Option.some.inj hstep)
    cases opened with
    | false => rfl
    | true => exact carried_close flow dir now
  case h_8 => contradiction

/-! ### Frames -/

theorem KndModel.Holds.ingestEach {least : Nat} {m : KndModel} {past : List (Nat → UInt8)}
    (h : m.Holds least past) (hcap : least ≤ m.payloadCap) (now : Nat) (ps : List (Nat → UInt8)) :
    (m.ingestEach utf16ToUtf8 now ps).Holds least (past ++ ps) := by
  induction ps generalizing m past with
  | nil =>
    rw [List.append_nil]
    exact h
  | cons p ps ih =>
    have hrest := ih (@KndModel.Holds.ingest utf16ToUtf8 _ _ _ h hcap p now)
      (by rwa [KndModel.ingest_payloadCap])
    rwa [List.append_assoc] at hrest

theorem Inspected.ingestEach {A : Gcm} {H : Hmac} {u : Ui} {w : Watches} (h : Inspected A H u w)
    (now : Nat) (ps : List (Nat → UInt8)) :
    Inspected A H { u with model := u.model.ingestEach utf16ToUtf8 now ps } w := by
  induction ps generalizing u with
  | nil => exact h
  | cons p ps ih => exact ih (h.ingest utf16ToUtf8 p now)

/-- The model holds what was drained since it was last cleared, the rest is still in the queue, and
whatever else the model has is not about the proxy. -/
structure Shell.Wf (A : Gcm) (H : Hmac) (utf8ToUtf16 : List UInt8 → List UInt16) (s : Shell)
    (h : Hearing) : Prop where
  mitm : s.mitm.Wf utf8ToUtf16
  inspected : Inspected A H s.ui h.watches
  least : h.least ≤ maxPayload
  model : ∃ past, s.ui.model.Holds h.least past ∧ ∀ i < 2 ^ 63, ∀ dir,
    h.heard i dir = concatenation (flowId i, dir) past ++ carried (flowId i, dir) s.mitm.queue

variable {A : Gcm} {H : Hmac}

theorem Shell.start_wf : Shell.start.Wf A H utf8ToUtf16 .start where
  mitm := start_mitm_wf
  inspected := inspected_init A H
  least := Nat.le_refl _
  model := ⟨[], holds_empty _ _ _, fun _ _ _ => rfl⟩

variable {s t : Shell} {h : Hearing}

theorem Shell.Wf.takes (hwf : s.Wf A H utf8ToUtf16 h) {polled : List (Nat → UInt8)} {now : Nat}
    (hforeign : (ShellEvent.takes polled now).Foreign)
    (hfew : s.mitm.threads.members.length < 2 ^ 63) {mitm : Mitm}
    (hdrain : s.mitm.step utf8ToUtf16 .drain = some mitm) :
    (Shell.mk mitm { s.ui with
      model := s.ui.model.ingestEach utf16ToUtf8 now (polled ++ s.mitm.queue.map pointer) }).Wf
      A H utf8ToUtf16 (h.after s (.takes polled now)) := by
  have hmitm := hwf.mitm.step (e := .drain) (by
    obtain rfl := Option.some.inj hdrain
    exact hfew) hdrain
  obtain rfl := Option.some.inj hdrain
  obtain ⟨past, hholds, hheard⟩ := hwf.model
  refine ⟨hmitm, hwf.inspected.ingestEach now _, Nat.le_trans (Nat.min_le_left ..) hwf.least, _,
    (hholds.mono (Nat.min_le_left ..)).ingestEach (Nat.min_le_right ..) now _, fun i hi dir => ?_⟩
  have hpolled : concatenation (flowId i, dir) polled = [] :=
    List.flatMap_eq_nil_iff.mpr fun p hp =>
      dataBytes_of_not_feeds fun hfeeds => hforeign p hp i hi hfeeds.recordFlow
  have hsplit : concatenation (flowId i, dir) (past ++ (polled ++ s.mitm.queue.map pointer)) =
      concatenation (flowId i, dir) past ++ (concatenation (flowId i, dir) polled ++
        carried (flowId i, dir) s.mitm.queue) := by
    simp only [concatenation, carried, List.flatMap_append]
  rw [hsplit, hpolled, List.nil_append, ← hheard i hi dir]
  exact (List.append_nil _).symm

/-- A thread of the proxy queues what its handler reads. -/
theorem Shell.Wf.thread (hwf : s.Wf A H utf8ToUtf16 h) {i : Nat} {e : HandlerEvent} {mitm : Mitm}
    (hfew : mitm.threads.members.length < 2 ^ 63)
    (hmitm : s.mitm.step utf8ToUtf16 (.thread i e) = some mitm) :
    ({ s with mitm } : Shell).Wf A H utf8ToUtf16 (h.after s (.proxy (.thread i e))) := by
  have hstep := hwf.mitm.step hfew hmitm
  obtain ⟨m, hm, hrest⟩ := Option.bind_eq_some_iff.mp hmitm
  obtain ⟨⟨h', out⟩, hhandler, heq⟩ := Option.bind_eq_some_iff.mp hrest
  obtain rfl := Option.some.inj heq
  obtain ⟨hflow, hlived⟩ := hwf.mitm.handlers i m hm
  obtain ⟨past, hholds, hheard⟩ := hwf.model
  refine ⟨hstep, hwf.inspected, hwf.least, past, hholds, fun j hj dir => ?_⟩
  show h.heard j dir ++ _ = _ ++ carried _ (s.mitm.queue ++ out)
  rw [carried_append, ← List.append_assoc, ← hheard j hj dir, hm, Option.elim_some]
  congr 1
  by_cases hij : i = j
  · rw [if_pos hij, ← hij, ← hflow]
    exact (Handler.step_carries hhandler dir).symm
  · rw [if_neg hij]
    refine (carried_of_flow_ne fun record hrecord hsame => hij ?_).symm
    have hown := (Handler.step_goes hlived hhandler).own record hrecord
    have hi : i < 2 ^ 63 := by
      have hlt := (List.getElem?_eq_some_iff.mp hm).1
      have hlen : (s.mitm.threads.act i h' out).members.length =
          s.mitm.threads.members.length := by simp [Pool.act]
      have hfew : (s.mitm.threads.act i h' out).members.length < 2 ^ 63 := hfew
      omega
    exact flowId_inj hi hj (hflow.symm.trans (hown.symm.trans hsame))

theorem Shell.ui_cases {e : UiEvent} (h : s.step A H utf8ToUtf16 utf16ToUtf8 (.ui e) = some t) :
    ∃ u, s.ui.step A H utf16ToUtf8 e = some u ∧ t = { s with ui := u } := by
  cases e with
  | ingest p now => contradiction
  | clear | frame _ | select _ | payloadCap _ | loadKeylog _ =>
    simp only [Shell.step, Option.map_eq_some_iff] at h
    obtain ⟨u, hu, rfl⟩ := h
    exact ⟨u, hu, rfl⟩

/-- What the user does takes nothing from the model but by a clear. -/
theorem Shell.Wf.ui (hwf : s.Wf A H utf8ToUtf16 h) {e : UiEvent}
    (hstep : s.step A H utf8ToUtf16 utf16ToUtf8 (.ui e) = some t) :
    t.Wf A H utf8ToUtf16 (h.after s (.ui e)) := by
  obtain ⟨past, hholds, hheard⟩ := hwf.model
  obtain ⟨u, hu, rfl⟩ := Shell.ui_cases hstep
  have hinspected := hwf.inspected.step utf16ToUtf8 hu
  cases e with
  | ingest p now => contradiction
  | clear =>
    obtain rfl := Option.some.inj hu
    exact ⟨hwf.mitm, hinspected, Nat.le_refl _, [], holds_empty _ _ _, fun _ _ _ => rfl⟩
  | frame tab =>
    refine ⟨hwf.mitm, hinspected, hwf.least, past, ?_, hheard⟩
    cases tab with
    | none => exact Option.some.inj hu ▸ hholds
    | some tab => exact (drawInspector_keeps hu).1 ▸ hholds
  | payloadCap mb =>
    obtain rfl := Option.some.inj hu
    exact ⟨hwf.mitm, hinspected, hwf.least, past, hholds.recap _, hheard⟩
  | select id | loadKeylog contents =>
    obtain rfl := Option.some.inj hu
    exact ⟨hwf.mitm, hinspected, hwf.least, past, hholds, hheard⟩

theorem Shell.Wf.step {e : ShellEvent} (hwf : s.Wf A H utf8ToUtf16 h) (he : e.Foreign)
    (hfew : t.mitm.threads.members.length < 2 ^ 63)
    (hstep : s.step A H utf8ToUtf16 utf16ToUtf8 e = some t) :
    t.Wf A H utf8ToUtf16 (h.after s e) := by
  cases e with
  | takes polled now =>
    simp only [Shell.step, Option.map_eq_some_iff] at hstep
    obtain ⟨mitm, hdrain, rfl⟩ := hstep
    have hlen : mitm.threads = s.mitm.threads := by
      obtain rfl := Option.some.inj hdrain
      rfl
    exact hwf.takes he (by rwa [← hlen]) hdrain
  | ui e => exact hwf.ui hstep
  | proxy e =>
    cases e with
    | drain => contradiction
    | accepted =>
      simp only [Shell.step, Option.map_eq_some_iff] at hstep
      obtain ⟨mitm, hmitm, rfl⟩ := hstep
      have hnext := hwf.mitm.step hfew hmitm
      obtain rfl := Option.some.inj hmitm
      exact ⟨hnext, hwf.inspected, hwf.least, hwf.model⟩
    | thread i e =>
      simp only [Shell.step, Option.map_eq_some_iff] at hstep
      obtain ⟨mitm, hmitm, rfl⟩ := hstep
      exact hwf.thread hfew hmitm

theorem Shell.members_le {e : ShellEvent} (h : s.step A H utf8ToUtf16 utf16ToUtf8 e = some t) :
    s.mitm.threads.members.length ≤ t.mitm.threads.members.length := by
  cases e with
  | takes polled now =>
    simp only [Shell.step, Option.map_eq_some_iff] at h
    obtain ⟨mitm, hdrain, rfl⟩ := h
    exact Mitm.members_le hdrain
  | ui e =>
    obtain ⟨u, -, rfl⟩ := Shell.ui_cases h
    exact Nat.le_refl _
  | proxy e =>
    cases e with
    | drain => contradiction
    | accepted | thread i e =>
      simp only [Shell.step, Option.map_eq_some_iff] at h
      obtain ⟨mitm, hmitm, rfl⟩ := h
      exact Mitm.members_le hmitm

theorem Shell.run_wf {es : List ShellEvent} (hes : ∀ e ∈ es, e.Foreign)
    (hrun : runEvents (withHistory (Shell.step A H utf8ToUtf16 utf16ToUtf8) Hearing.after)
      (.start, .start) es = some (s, h))
    (hfew : s.mitm.threads.members.length < 2 ^ 63) : s.Wf A H utf8ToUtf16 h := by
  have hstep (x : Shell × Hearing) (e : ShellEvent) (y : Shell × Hearing) (he : e.Foreign)
      (hx : x.1.mitm.threads.members.length < 2 ^ 63 → x.1.Wf A H utf8ToUtf16 x.2)
      (hy : withHistory (Shell.step A H utf8ToUtf16 utf16ToUtf8) Hearing.after x e = some y)
      (hfew : y.1.mitm.threads.members.length < 2 ^ 63) : y.1.Wf A H utf8ToUtf16 y.2 := by
    obtain ⟨t, ht, rfl⟩ := Option.map_eq_some_iff.mp hy
    exact (hx (Nat.lt_of_le_of_lt (Shell.members_le ht) hfew)).step he hfew ht
  exact runEvents_invariant ShellEvent.Foreign hstep (fun _ => Shell.start_wf) hes hrun hfew

/-- The records of a connection are drained: its payloads are what its handler has read, as far as
no cap was too small for it. -/
theorem Shell.Wf.payload (hwf : s.Wf A H utf8ToUtf16 h) {i : Nat} (hi : i < 2 ^ 63)
    (hdrained : ∀ record ∈ s.mitm.queue, Proxy.recordFlow record ≠ flowId i) {dir : Dir}
    (hcap : (h.heard i dir).length ≤ h.least) :
    (s.ui.model.flow (flowId i)).payload dir = h.heard i dir ∧
      (h.heard i dir ≠ [] → (s.ui.model.find (flowId i)).isSome = true) := by
  obtain ⟨past, hholds, hheard⟩ := hwf.model
  have hall : h.heard i dir = concatenation (flowId i, dir) past := by
    rw [hheard i hi dir, carried_of_flow_ne (k := (flowId i, dir)) hdrained, List.append_nil]
  refine ⟨?_, fun hne => ?_⟩
  · rw [hall] at hcap ⊢
    exact hholds.whole (flowId i, dir) hcap
  · have hsome : ∃ p ∈ past, Feeds (flowId i, dir) p := by
      by_contra hnone
      exact hne (hall.trans (List.flatMap_eq_nil_iff.mpr fun p hp =>
        dataBytes_of_not_feeds fun hfeeds => hnone ⟨p, hp, hfeeds⟩))
    obtain ⟨p, hp, hfeeds⟩ := hsome
    exact hholds.known _ p hp hfeeds.recordFlow

end

/-- A handler reads `bytes` and hands them over in whole. -/
def handsOver (bytes : List UInt8) : List MitmEvent :=
  [.thread 0 (.relays (.read (.data bytes) 0)), .thread 0 (.relays (.write (.wrote bytes.length)))]

/-- One connection up to the first piece of its request. -/
def asking : List MitmEvent :=
  [.accepted, .thread 0 (.peeked true)] ++ List.replicate 13 (.thread 0 .passed) ++
    [.thread 0 (.opens (text "a.io") 443 0), .thread 0 (.relays (.check true))] ++
    handsOver ((rootTalk.bytes .client).take 7)

def answering : List MitmEvent :=
  handsOver ((rootTalk.bytes .client).drop 7) ++ [.thread 0 (.relays (.read .want 0))] ++
    handsOver (rootTalk.bytes .server)

/-- Something of another flow is cleared first, and the cap is raised. The request is drawn while its
second piece is still to come. -/
def rootFrames : List ShellEvent :=
  [.takes [pointer (buildData 1000 kndDirOutbound [1] 0)] 0, .ui .clear, .ui (.payloadCap 8)] ++
    asking.map .proxy ++
    [.takes [pointer (buildData 1000 kndDirOutbound [2] 0)] 1, .ui (.select (flowId 0)),
      .ui (.frame (some .http))] ++
    answering.map .proxy ++ [.takes [] 2]

theorem rootFrames_foreign : ∀ e ∈ rootFrames, e.Foreign := by
  have hproxy : ∀ es : List MitmEvent, ∀ e ∈ es.map ShellEvent.proxy, e.Foreign := by
    intro es e he
    obtain ⟨e', -, rfl⟩ := List.mem_map.mp he
    trivial
  have hrecord : ∀ b, NetDebugger.recordFlow (pointer (buildData 1000 kndDirOutbound [b] 0)) =
      some 1000 → ∀ now,
      (ShellEvent.takes [pointer (buildData 1000 kndDirOutbound [b] 0)] now).Foreign := by
    intro b hflow now p hp i hi heq
    rw [List.mem_singleton.mp hp, hflow] at heq
    have hnat := congrArg UInt64.toNat (Option.some.inj heq)
    rw [flowId_toNat hi] at hnat
    have hthousand : (1000 : UInt64).toNat = 1000 := by decide
    omega
  simp only [rootFrames, List.forall_mem_append, List.forall_mem_cons, List.not_mem_nil,
    false_implies, implies_true, and_true]
  refine ⟨⟨⟨⟨⟨hrecord 1 (by decide +kernel) 0, trivial, trivial⟩, hproxy _⟩,
    hrecord 2 (by decide +kernel) 1, trivial, trivial⟩, hproxy _⟩, ?_⟩
  intro p hp
  contradiction

/-- The window and the threads, with the toy cipher and plain text. -/
def rootStep : Shell × Hearing → ShellEvent → Option (Shell × Hearing) :=
  withHistory (Shell.step sumGcm cutHmac asciiToUtf16 asciiToUtf8) Hearing.after

end NetDebugger
