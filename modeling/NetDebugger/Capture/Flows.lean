import NetDebugger.Capture

/-! The counter `activeFlows` under the callouts of `wfp.c`.  `KndClassifyFlow` and `KndFlowDelete`
run on several processors at once; each of their accesses to shared state is a step of its own: the
test of `CaptureActive`, the call of `KndRingWrite` under its lock, the interlocked update, the
association of the flow context. -/

namespace NetDebugger.Capture

open Lib NetDebugger.Ring

/-- Where a flow is in its callouts. -/
inductive Phase
  | opening
  | counting
  | associating
  | unassociated
  | associated
  | closing
  | uncounting
  | deleted
deriving DecidableEq

/-- A flow whose establishment WFP has reported. `next` is what `KndNextFlowId` returned where it
was called, `accepted` what `KndRingWrite` returned for the CONN_OPEN. -/
structure Flow where
  fields : FlowFields
  next : UInt64
  accepted : Bool
  phase : Phase

/-- `KND_DEVICE_CONTEXT` as far as the callouts read it, with `g_streamIdV4` and `g_streamIdV6`.
`flows` is a history. -/
structure Device where
  ring : RingState
  captureActive : Bool
  nextFlowId : UInt64
  streamIdV4 : UInt32
  streamIdV6 : UInt32
  flows : List Flow

def Device.initial (s : RingState) (streamIdV4 streamIdV6 : UInt32) : Device where
  ring := s
  captureActive := false
  nextFlowId := 0
  streamIdV4 := streamIdV4
  streamIdV6 := streamIdV6
  flows := []

inductive DeviceEvent
  | start
  | stop
  | classifyFlow (f : FlowFields)
  | writeOpen (i : Nat) (timestamp : UInt64)
  | increment (i : Nat)
  | associate (i : Nat) (succeeds : Bool)
  | flowDelete (i : Nat)
  | writeClose (i : Nat) (timestamp : UInt64)
  | decrement (i : Nat)
  | write (c : WriteCall)
  | consume (readPos : UInt64)

def Flow.payload (fl : Flow) : KndConnPayload := openPayload fl.fields fl.next

def Flow.openCall (fl : Flow) (timestamp : UInt64) : WriteCall :=
  connCall kndRecConnOpen fl.payload timestamp

/-- The flow context of a deletion is the flow id that was associated. -/
def Flow.closeCall (fl : Flow) (timestamp : UInt64) : WriteCall :=
  connCall kndRecConnClose (closePayload fl.payload.flowId) timestamp

def Device.streamId (y : Device) (fl : Flow) : UInt32 :=
  match fl.fields.addrs with
  | .v4 .. => y.streamIdV4
  | .v6 .. => y.streamIdV6

/-- `KndClassifyFlow` calls `FwpsFlowAssociateContext0`. -/
def Device.Associates (y : Device) (fl : Flow) : Prop :=
  fl.fields.flowHandle.getD 0 ≠ 0 ∧ y.streamId fl ≠ 0

instance (y : Device) (fl : Flow) : Decidable (y.Associates fl) := by
  unfold Device.Associates
  infer_instance

def setActiveFlows (s : RingState) (n : Nat) : RingState :=
  { s with header := { s.header with activeFlows := n } }

/-- The flow at `i` moves on from the phase `ph`. -/
def Device.turn (y : Device) (i : Nat) (ph : Phase) (k : Flow → RingState × Flow) :
    Option Device :=
  match y.flows[i]? with
  | some fl =>
    if fl.phase = ph then some { y with ring := (k fl).1, flows := y.flows.set i (k fl).2 } else none
  | none => none

def Device.step (y : Device) : DeviceEvent → Option Device
  | .start => some { y with
      captureActive := true
      ring := { y.ring with header := { y.ring.header with captureActive := 1 } } }
  | .stop => some { y with
      captureActive := false
      ring := { y.ring with header := { y.ring.header with captureActive := 0 } } }
  | .classifyFlow f =>
    if y.captureActive then
      let next := if f.flowHandle.isNone then y.nextFlowId + 1 else y.nextFlowId
      some { y with nextFlowId := next, flows := y.flows ++ [⟨f, next, false, .opening⟩] }
    else some { y with flows := y.flows ++ [⟨f, y.nextFlowId, false, .unassociated⟩] }
  | .writeOpen i timestamp => y.turn i .opening fun fl =>
      let w := kndRingWrite y.ring (fl.openCall timestamp)
      (w.1, { fl with accepted := w.2, phase := if w.2 then .counting else .associating })
  | .increment i => y.turn i .counting fun fl =>
      (setActiveFlows y.ring ((y.ring.header.activeFlows + 1) % 2 ^ 32),
        { fl with phase := .associating })
  | .associate i succeeds => y.turn i .associating fun fl =>
      (y.ring, { fl with
        phase := if y.Associates fl ∧ succeeds then .associated else .unassociated })
  | .flowDelete i => y.turn i .associated fun fl =>
      (y.ring, { fl with phase := if y.captureActive then .closing else .deleted })
  | .writeClose i timestamp => y.turn i .closing fun fl =>
      let w := kndRingWrite y.ring (fl.closeCall timestamp)
      (w.1, { fl with phase := if w.2 then .uncounting else .deleted })
  | .decrement i => y.turn i .uncounting fun fl =>
      (setActiveFlows y.ring ((y.ring.header.activeFlows + 2 ^ 32 - 1) % 2 ^ 32),
        { fl with phase := .deleted })
  | .write c => some { y with ring := (kndRingWrite y.ring c).1 }
  | .consume readPos => some { y with
      ring := { y.ring with header := { y.ring.header with readPos := readPos.toNat } } }

/-- No callout is running. -/
def Device.Quiet (y : Device) : Prop :=
  ∀ fl ∈ y.flows, fl.phase = .unassociated ∨ fl.phase = .associated ∨ fl.phase = .deleted

/-- The associated flows that have not been deleted, of those whose CONN_OPEN was accepted. -/
def Device.openFlows (y : Device) : Nat :=
  y.flows.countP fun fl => fl.accepted && fl.phase = .associated

/-- The flow has been counted, and not yet counted off. -/
def Flow.held (fl : Flow) : Bool :=
  fl.accepted && match fl.phase with
    | .associating | .associated | .closing | .uncounting => true
    | _ => false

/-- `KndRingWrite` finds room for the record of a call. -/
def HasRoom (s : RingState) (c : WriteCall) : Prop :=
  c.recLen ≤ s.dataSize ∧ s.header.readPos ≤ s.writePos ∧
    s.writePos - s.header.readPos ≤ s.dataSize ∧
    (layout s.dataSize s.writePos c.recLen).total ≤ s.dataSize - (s.writePos - s.header.readPos)

/-- Where the counter stays exact: an accepted CONN_OPEN is followed by an association, and its
CONN_CLOSE is accepted too; that of a dropped CONN_OPEN is dropped or suppressed. -/
def Device.Meets (y : Device) : DeviceEvent → Prop
  | .increment _ => y.ring.header.activeFlows + 1 < 2 ^ 32
  | .associate i succeeds => ∀ fl ∈ y.flows[i]?, fl.accepted = true →
      y.Associates fl ∧ succeeds = true
  | .flowDelete i => ∀ fl ∈ y.flows[i]?, fl.accepted = true → y.captureActive = true
  | .writeClose i timestamp => ∀ fl ∈ y.flows[i]?,
      (fl.accepted = true ↔ HasRoom y.ring (fl.closeCall timestamp))
  | _ => True

instance (s : RingState) (c : WriteCall) : Decidable (HasRoom s c) := by
  unfold HasRoom
  infer_instance

instance (y : Device) (e : DeviceEvent) : Decidable (y.Meets e) := by
  cases e <;> unfold Device.Meets <;> infer_instance

/-! ### Steps -/

theorem place_isOk (D wp rp recLen : Nat) :
    (place D wp rp recLen).isOk = true ↔ recLen ≤ D ∧ rp ≤ wp ∧ wp - rp ≤ D ∧
      (layout D wp recLen).total ≤ D - (wp - rp) := by
  unfold place
  split
  · simp [Except.isOk, Except.toBool]
    omega
  · split
    · simp [Except.isOk, Except.toBool]
      omega
    · simp only
      split
      · simp [Except.isOk, Except.toBool]
        omega
      · simp [Except.isOk, Except.toBool]
        omega

theorem kndRingWrite_snd (s : RingState) (c : WriteCall) :
    (kndRingWrite s c).2 = true ↔ HasRoom s c := by
  rw [HasRoom, ← place_isOk]
  unfold kndRingWrite beginWrite
  cases place s.dataSize s.writePos s.header.readPos c.recLen <;> rfl

@[simp] theorem kndRingWrite_activeFlows (s : RingState) (c : WriteCall) :
    (kndRingWrite s c).1.header.activeFlows = s.header.activeFlows := by
  unfold kndRingWrite beginWrite
  cases place s.dataSize s.writePos s.header.readPos c.recLen <;> rfl

theorem Device.turn_cases {y z : Device} {i : Nat} {ph : Phase} {k : Flow → RingState × Flow}
    (h : y.turn i ph k = some z) : ∃ fl, y.flows[i]? = some fl ∧ fl.phase = ph ∧
      z = { y with ring := (k fl).1, flows := y.flows.set i (k fl).2 } := by
  unfold Device.turn at h
  split at h
  · split at h
    · exact ⟨_, by assumption, by assumption, (Option.some.inj h).symm⟩
    · cases h
  · cases h

theorem countP_set_add {α : Type} (p : α → Bool) {xs : List α} {i : Nat} {a : α}
    (h : xs[i]? = some a) (b : α) :
    (xs.set i b).countP p + (if p a then 1 else 0) = xs.countP p + if p b then 1 else 0 := by
  obtain ⟨hi, rfl⟩ := List.getElem?_eq_some_iff.mp h
  rw [List.countP_set hi]
  have hpos : p xs[i] = true → 0 < xs.countP p := fun hp =>
    List.countP_pos_iff.mpr ⟨_, List.getElem_mem hi, hp⟩
  split
  · have := hpos (by assumption)
    omega
  · omega

/-- The flows in the middle of a callout. -/
structure Flow.Ok (fl : Flow) : Prop where
  opening : fl.phase = .opening → fl.accepted = false
  counting : fl.phase = .counting → fl.accepted = true
  uncounting : fl.phase = .uncounting → fl.accepted = true

structure Balanced (y : Device) : Prop where
  active : y.ring.header.activeFlows = y.flows.countP Flow.held
  small : y.ring.header.activeFlows < 2 ^ 32
  flows : ∀ fl ∈ y.flows, fl.Ok

/-- A turn keeps the balance where it moves the counter by as much as it changes the flow. -/
theorem Balanced.turn {y z : Device} (h : Balanced y) {i : Nat} {ph : Phase}
    {k : Flow → RingState × Flow} (hz : y.turn i ph k = some z)
    (hk : ∀ fl, y.flows[i]? = some fl → fl.phase = ph → fl.Ok →
      (k fl).2.Ok ∧ (k fl).1.header.activeFlows < 2 ^ 32 ∧
        ((fl.held = true → 0 < y.ring.header.activeFlows) →
          (k fl).1.header.activeFlows + (if fl.held then 1 else 0) =
            y.ring.header.activeFlows + if (k fl).2.held then 1 else 0)) :
    Balanced z := by
  obtain ⟨fl, hget, hph, rfl⟩ := Device.turn_cases hz
  have hmem : fl ∈ y.flows := List.mem_of_getElem? hget
  obtain ⟨hok, hsmall, hmove⟩ := hk fl hget hph (h.flows fl hmem)
  have hcount := countP_set_add Flow.held hget (k fl).2
  have hactive := hmove fun hheld => by
    rw [h.active]
    exact List.countP_pos_iff.mpr ⟨fl, hmem, hheld⟩
  constructor
  case active =>
    have hold := h.active
    simp only
    omega
  case small => exact hsmall
  case flows =>
    intro gl hgl
    rcases List.mem_or_eq_of_mem_set hgl with hgl | rfl
    · exact h.flows gl hgl
    · exact hok

/-- A turn that leaves the counter alone. -/
theorem Balanced.move {y z : Device} (h : Balanced y) {i : Nat} {ph : Phase}
    {k : Flow → RingState × Flow} (hz : y.turn i ph k = some z)
    (hk : ∀ fl, y.flows[i]? = some fl → fl.phase = ph → fl.Ok → (k fl).2.Ok ∧
      (k fl).1.header.activeFlows = y.ring.header.activeFlows ∧ (k fl).2.held = fl.held) :
    Balanced z := by
  apply h.turn hz
  intro fl hget hph hok
  obtain ⟨hok', hactive, hheld⟩ := hk fl hget hph hok
  refine ⟨hok', by rw [hactive]; exact h.small, fun _ => by rw [hactive, hheld]⟩

/-- The counter only moves with the flows. -/
theorem Balanced.of_same {y z : Device} (h : Balanced y)
    (hactive : z.ring.header.activeFlows = y.ring.header.activeFlows) (hflows : z.flows = y.flows) :
    Balanced z :=
  ⟨by rw [hactive, hflows, h.active], by rw [hactive]; exact h.small, by rw [hflows]; exact h.flows⟩

/-- A flow that enters is not counted yet. -/
theorem Balanced.enter {y z : Device} (h : Balanced y) {fl : Flow} (hring : z.ring = y.ring)
    (hflows : z.flows = y.flows ++ [fl]) (haccepted : fl.accepted = false)
    (hph : fl.phase = .opening ∨ fl.phase = .unassociated) : Balanced z := by
  constructor
  case active => simp [hring, hflows, h.active, Flow.held, haccepted]
  case small => rw [hring]; exact h.small
  case flows =>
    intro gl hgl
    rw [hflows] at hgl
    rcases List.mem_append.mp hgl with hgl | hgl
    · exact h.flows gl hgl
    · obtain rfl := List.mem_singleton.mp hgl
      constructor
      · exact fun _ => haccepted
      · rcases hph with hph | hph <;> simp [hph]
      · rcases hph with hph | hph <;> simp [hph]

theorem step_balanced {y z : Device} {e : DeviceEvent} (hmeets : y.Meets e) (h : Balanced y)
    (hz : y.step e = some z) : Balanced z := by
  have hsmall := h.small
  cases e with
  | start | stop | consume =>
    obtain rfl := Option.some.inj hz
    exact h.of_same rfl rfl
  | write c =>
    obtain rfl := Option.some.inj hz
    exact h.of_same (kndRingWrite_activeFlows ..) rfl
  | classifyFlow f =>
    simp only [Device.step] at hz
    split at hz
    · obtain rfl := Option.some.inj hz
      exact h.enter rfl rfl rfl (.inl rfl)
    · obtain rfl := Option.some.inj hz
      exact h.enter rfl rfl rfl (.inr rfl)
  | writeOpen i timestamp =>
    apply h.move hz
    intro fl hget hph hok
    have hfresh := hok.opening hph
    refine ⟨?_, kndRingWrite_activeFlows .., ?_⟩
    · cases hw : (kndRingWrite y.ring (fl.openCall timestamp)).2 <;> constructor <;> simp [hw]
    · cases hw : (kndRingWrite y.ring (fl.openCall timestamp)).2 <;> simp [Flow.held, hfresh, hw]
  | increment i =>
    apply h.turn hz
    intro fl hget hph hok
    have hroom : y.ring.header.activeFlows + 1 < 2 ^ 32 := hmeets
    have haccepted := hok.counting hph
    refine ⟨by constructor <;> simp, Nat.mod_lt _ (Nat.two_pow_pos 32), fun _ => ?_⟩
    have hlow : fl.held = false := by simp [Flow.held, hph]
    have hhigh : Flow.held { fl with phase := .associating } = true := by
      simp [Flow.held, haccepted]
    simp only [hlow, hhigh, setActiveFlows, if_true, Bool.false_eq_true, if_false]
    omega
  | associate i succeeds =>
    apply h.move hz
    intro fl hget hph hok
    have hassociates := hmeets fl hget
    refine ⟨?_, rfl, ?_⟩
    · by_cases hboth : y.Associates fl ∧ succeeds = true <;> constructor <;> simp [hboth]
    · cases haccepted : fl.accepted with
      | true => simp [Flow.held, haccepted, hph, hassociates haccepted]
      | false => simp [Flow.held, haccepted]
  | flowDelete i =>
    apply h.move hz
    intro fl hget hph hok
    have hactive := hmeets fl hget
    refine ⟨?_, rfl, ?_⟩
    · by_cases hcapture : y.captureActive = true <;> constructor <;> simp [hcapture]
    · cases haccepted : fl.accepted with
      | true => simp [Flow.held, haccepted, hph, hactive haccepted]
      | false => simp [Flow.held, haccepted]
  | writeClose i timestamp =>
    apply h.move hz
    intro fl hget hph hok
    -- the call is accepted exactly where that of the CONN_OPEN was
    have hroom : fl.accepted = true ↔ (kndRingWrite y.ring (fl.closeCall timestamp)).2 = true := by
      rw [kndRingWrite_snd]
      exact hmeets fl hget
    refine ⟨?_, kndRingWrite_activeFlows .., ?_⟩
    · cases hw : (kndRingWrite y.ring (fl.closeCall timestamp)).2 <;> constructor <;>
        simp_all
    · cases haccepted : fl.accepted with
      | true => simp [Flow.held, haccepted, hph, hroom.mp haccepted]
      | false => simp [Flow.held, haccepted]
  | decrement i =>
    apply h.turn hz
    intro fl hget hph hok
    have hheld : fl.held = true := by simp [Flow.held, hok.uncounting hph, hph]
    refine ⟨by constructor <;> simp, Nat.mod_lt _ (Nat.two_pow_pos 32), fun hpos => ?_⟩
    have hpositive := hpos hheld
    have hgone : Flow.held { fl with phase := .deleted } = false := by simp [Flow.held]
    simp only [hheld, hgone, setActiveFlows, if_true, Bool.false_eq_true, if_false]
    omega

theorem balanced_initial {alloc : Allocation} {size : UInt32} {s₀ : RingState}
    (hcreate : kndRingCreate alloc size = .ok s₀) (v4 v6 : UInt32) :
    Balanced (Device.initial s₀ v4 v6) := by
  obtain ⟨-, rfl⟩ := kndRingCreate_ok hcreate
  constructor
  case active => rfl
  case small => exact Nat.two_pow_pos 32
  case flows => simp [Device.initial]

/-- With no callout running the flows that are held are the open ones. -/
theorem Device.Quiet.held {y : Device} (h : y.Quiet) : y.flows.countP Flow.held = y.openFlows := by
  refine List.countP_congr fun fl hfl => ?_
  rcases h fl hfl with hph | hph | hph <;> simp [Flow.held, hph]

/-- Where each step meets its condition the counter is exact, in the middle of callouts too, and
no decrement finds it at zero. -/
theorem activeFlows_exact {alloc : Allocation} {size : UInt32} {s₀ : RingState}
    (hcreate : kndRingCreate alloc size = .ok s₀) (v4 v6 : UInt32) {es : List DeviceEvent}
    {y : Device} (hrun : runEvents Device.step (Device.initial s₀ v4 v6) es = some y)
    (hmeets : EachStep Device.step Device.Meets (Device.initial s₀ v4 v6) es) :
    (y.Quiet → y.ring.header.activeFlows = y.openFlows) ∧
    y.ring.header.activeFlows = y.flows.countP Flow.held ∧
    ∀ i z, y.step (.decrement i) = some z →
      z.ring.header.activeFlows + 1 = y.ring.header.activeFlows := by
  have h : Balanced y := runEvents_invariant_of (fun _ _ _ hm hs ht => step_balanced hm hs ht)
    (balanced_initial hcreate v4 v6) hmeets hrun
  refine ⟨fun hquiet => ?_, h.active, fun i z hz => ?_⟩
  · rw [h.active, hquiet.held]
  · obtain ⟨fl, hget, hph, rfl⟩ := Device.turn_cases hz
    have hmem : fl ∈ y.flows := List.mem_of_getElem? hget
    have hheld : fl.held = true := by
      simp [Flow.held, (h.flows fl hmem).uncounting hph, hph]
    have hpos : 0 < y.ring.header.activeFlows := by
      rw [h.active]
      exact List.countP_pos_iff.mpr ⟨fl, hmem, hheld⟩
    have hsmall := h.small
    simp only [setActiveFlows]
    omega

/-! ### A flow that opens and closes, a stop in between, and a full ring -/

def someFlow : FlowFields where
  addrs := .v4 0x0A000001 0x0A000002
  localPort := 50000
  remotePort := 443
  protocol := kndProtoTcp
  inbound := false
  flowHandle := some 7
  processId := some 4
  processPath := none

/-- The callout of an established flow, whose CONN_OPEN is accepted or not. -/
def classifyEvents (i : Nat) (accepted : Bool) : List DeviceEvent :=
  [.classifyFlow someFlow, .writeOpen i 100] ++ (if accepted then [.increment i] else []) ++
    [.associate i true]

/-- One flow opens and closes, another stays open. -/
def balancedEvents : List DeviceEvent :=
  [.start] ++ classifyEvents 0 true ++ classifyEvents 1 true ++
    [.flowDelete 0, .writeClose 0 200, .decrement 0]

/-- Capture is stopped before the deletion. -/
def stoppedEvents : List DeviceEvent :=
  [.start] ++ classifyEvents 0 true ++ [.stop, .flowDelete 0]

/-- Data of other flows fills the ring before the CONN_OPEN; it is drained before the CONN_CLOSE. -/
def fullEvents : List DeviceEvent :=
  [.start] ++
    List.replicate 105 (.write (dataCall 9 kndDirInbound 0 (List.replicate 584 0) 100)) ++
    classifyEvents 0 false ++ [.consume 0x10000, .flowDelete 0, .writeClose 0 200, .decrement 0]

/-- What a run from a fresh ring of 64 KiB ends in. -/
def outcome (es : List DeviceEvent) : Option (Nat × Nat × List Phase) :=
  (runEvents Device.step (Device.initial (RingState.fresh 0x10000) 1 2) es).map fun y =>
    (y.ring.header.activeFlows, y.openFlows, y.flows.map Flow.phase)

theorem quiet_of_phases {y : Device}
    (h : ∀ ph ∈ y.flows.map Flow.phase, ph = .unassociated ∨ ph = .associated ∨ ph = .deleted) :
    y.Quiet :=
  fun _ hfl => h _ (List.mem_map_of_mem hfl)

theorem activeFlows_exact_balanced : ∃ y,
    runEvents Device.step (Device.initial (RingState.fresh 0x10000) 1 2) balancedEvents = some y ∧
      y.ring.header.activeFlows = 1 ∧ y.openFlows = 1 := by
  have hcreate : kndRingCreate ⟨true, true⟩ 0x10000 = .ok (RingState.fresh 0x10000) := rfl
  have hmeets : EachStep Device.step Device.Meets
      (Device.initial (RingState.fresh 0x10000) 1 2) balancedEvents := by decide +kernel
  have hout : outcome balancedEvents = some (1, 1, [.deleted, .associated]) := by decide +kernel
  obtain ⟨y, hrun, hy⟩ := Option.map_eq_some_iff.mp hout
  simp only [Prod.mk.injEq] at hy
  have hquiet : y.Quiet := quiet_of_phases (by rw [hy.2.2]; decide)
  have hexact := (activeFlows_exact hcreate 1 2 hrun hmeets).1 hquiet
  exact ⟨y, hrun, by rw [hexact, hy.2.1], hy.2.1⟩

/-- A stop before the deletion leaves a flow counted for good; a CONN_OPEN that the full ring drops
takes the counter below zero at the CONN_CLOSE. -/
theorem activeFlows_drifts :
    (∃ y, runEvents Device.step (Device.initial (RingState.fresh 0x10000) 1 2) stoppedEvents =
        some y ∧ y.Quiet ∧ y.openFlows = 0 ∧ y.ring.header.activeFlows = 1) ∧
    ∃ y, runEvents Device.step (Device.initial (RingState.fresh 0x10000) 1 2) fullEvents =
        some y ∧ y.Quiet ∧ y.openFlows = 0 ∧ y.ring.header.activeFlows = 2 ^ 32 - 1 := by
  have hstopped : outcome stoppedEvents = some (1, 0, [.deleted]) := by decide +kernel
  have hfull : outcome fullEvents = some (2 ^ 32 - 1, 0, [.deleted]) := by decide +kernel
  obtain ⟨y, hrun, hy⟩ := Option.map_eq_some_iff.mp hstopped
  obtain ⟨z, hrun', hz⟩ := Option.map_eq_some_iff.mp hfull
  simp only [Prod.mk.injEq] at hy hz
  refine ⟨⟨y, hrun, quiet_of_phases ?_, hy.2.1, hy.1⟩, z, hrun', quiet_of_phases ?_, hz.2.1, hz.1⟩
  · rw [hy.2.2]
    decide
  · rw [hz.2.2]
    decide

end NetDebugger.Capture
