import NetDebugger.Driver.Mapping

/-! The life of the driver, from `DriverEntry` to `KndUnload`.  The filter engine calls the registered
callouts until they are unregistered, and it may refuse that for as long as it likes. -/

namespace NetDebugger.Driver

/-! ### The callouts -/

/-- The five callouts of `KndWfpStart`, by their keys. -/
inductive Callout
  | flowV4 | flowV6 | streamV4 | streamV6 | redirectV4
deriving DecidableEq

/-- The order in which they are registered. -/
def callouts : List Callout := [.flowV4, .flowV6, .streamV4, .streamV6, .redirectV4]

def kndMaxCallouts : Nat := 8

/-- What `FwpsCalloutRegister1`, `FwpmCalloutAdd0` and `FwpmFilterAdd0` answer for a callout. -/
structure CalloutAnswer where
  register : NtStatus
  calloutId : UInt32
  calloutAdd : NtStatus
  filterAdd : NtStatus

/-- What the filter engine answers to `KndWfpStart`. -/
structure StartEnv where
  engineOpen : NtStatus
  redirectHandleCreate : NtStatus
  transactionBegin : NtStatus
  subLayerAdd : NtStatus
  callout : Callout → CalloutAnswer
  transactionCommit : NtStatus

/-- The WFP part of `KND_DEVICE_CONTEXT` with the two stream ids, and the callouts that the engine
has: registered, and not unregistered since. -/
structure Wfp where
  engineHandle : Bool
  sublayerAdded : Bool
  /-- `CalloutIds` up to `NumCallouts`. -/
  calloutIds : List UInt32
  calloutsRegistered : Bool
  redirectHandleCreated : Bool
  streamIdV4 : UInt32
  streamIdV6 : UInt32
  live : List UInt32
deriving DecidableEq

def Wfp.zero : Wfp := ⟨false, false, [], false, false, 0, 0, []⟩

/-- `outCalloutId` of the stream callouts. -/
def Wfp.setStreamId (w : Wfp) : Callout → UInt32 → Wfp
  | .streamV4, id => { w with streamIdV4 := id }
  | .streamV6, id => { w with streamIdV6 := id }
  | _, _ => w

/-- `KndRegisterCallout`. -/
def kndRegisterCallout (w : Wfp) (c : Callout) (a : CalloutAnswer) : Wfp × NtStatus :=
  if !ntSuccess a.register then (w, a.register)
  else
    let w := { w.setStreamId c a.calloutId with live := w.live ++ [a.calloutId] }
    let w :=
      if w.calloutIds.length < kndMaxCallouts then
        { w with calloutIds := w.calloutIds ++ [a.calloutId] }
      else w
    if !ntSuccess a.calloutAdd then (w, a.calloutAdd) else (w, a.filterAdd)

/-- The five registrations, up to the first that fails. -/
def registerCallouts (callout : Callout → CalloutAnswer) : Wfp → List Callout → Wfp × NtStatus
  | w, [] => (w, statusSuccess)
  | w, c :: cs =>
    let (w, status) := kndRegisterCallout w c (callout c)
    if !ntSuccess status then (w, status) else registerCallouts callout w cs

/-- The loop around `FwpsCalloutUnregisterById0`: the last status, with `left` tries after this
one. -/
def unregisterLoop (answers : Nat → NtStatus) : Nat → Nat → NtStatus
  | 0, tries => answers tries
  | left + 1, tries =>
    if answers tries = statusDeviceBusy then unregisterLoop answers left (tries + 1)
    else answers tries

/-- At most 250 calls. -/
def unregisterCallout (answers : Nat → NtStatus) : NtStatus := unregisterLoop answers 249 0

/-- The engine without the callouts of `ids` that it let go. -/
def unregisterCallouts (answers : UInt32 → Nat → NtStatus) (ids live : List UInt32) : List UInt32 :=
  ids.foldl (fun live id => if ntSuccess (unregisterCallout (answers id)) then live.erase id else live)
    live

/-- `KndWfpStop`: `answers id` is what the tries for a callout return. None is looked at. -/
def kndWfpStop (answers : UInt32 → Nat → NtStatus) (w : Wfp) : Wfp where
  engineHandle := false
  sublayerAdded := false
  calloutIds := []
  calloutsRegistered := false
  redirectHandleCreated := false
  streamIdV4 := 0
  streamIdV6 := 0
  live := unregisterCallouts answers w.calloutIds w.live

/-- `KndWfpStart`. -/
def kndWfpStart (env : StartEnv) (answers : UInt32 → Nat → NtStatus) (w : Wfp) : Wfp × NtStatus :=
  if !ntSuccess env.engineOpen then (w, env.engineOpen)
  else
    let w :=
      { w with
        engineHandle := true
        redirectHandleCreated := w.redirectHandleCreated || ntSuccess env.redirectHandleCreate }
    if !ntSuccess env.transactionBegin then (kndWfpStop answers w, env.transactionBegin)
    else if !ntSuccess env.subLayerAdd then (kndWfpStop answers w, env.subLayerAdd)
    else
      match registerCallouts env.callout { w with sublayerAdded := true } callouts with
      | (w, status) =>
        if !ntSuccess status then (kndWfpStop answers w, status)
        else if !ntSuccess env.transactionCommit then (kndWfpStop answers w, env.transactionCommit)
        else ({ w with calloutsRegistered := true }, statusSuccess)

/-! ### The driver -/

/-- What the kernel answers to `DriverEntry`. -/
structure EntryEnv where
  pool : Bool
  ringCreate : NtStatus
  createDevice : NtStatus
  createSymbolicLink : NtStatus
  start : StartEnv

/-- What the driver holds: the context, the ring, the device, its link, and the callouts. -/
structure DriverState where
  context : Bool
  ring : Bool
  deviceObject : Bool
  symlink : Bool
  wfp : Wfp
deriving DecidableEq

def DriverState.unloaded : DriverState := ⟨false, false, false, false, Wfp.zero⟩

/-- `KndRingDestroy` keeps the ring while a user mapping of it is live. -/
def kndRingDestroy (ring mapped : Bool) : Bool := ring && mapped

/-- The failure path of `DriverEntry`. No application can have mapped the ring yet. -/
def DriverState.fail (d : DriverState) : DriverState :=
  { d with
    symlink := false
    deviceObject := false
    ring := kndRingDestroy d.ring false
    context := false }

/-- `DriverEntry`. -/
def driverEntry (env : EntryEnv) (answers : UInt32 → Nat → NtStatus) : DriverState × NtStatus :=
  let d := DriverState.unloaded
  if !env.pool then (d, statusInsufficientResources)
  else
    let d := { d with context := true }
    if !ntSuccess env.ringCreate then (d.fail, env.ringCreate)
    else
      let d := { d with ring := true }
      if !ntSuccess env.createDevice then (d.fail, env.createDevice)
      else
        let d := { d with deviceObject := true }
        if !ntSuccess env.createSymbolicLink then (d.fail, env.createSymbolicLink)
        else
          match kndWfpStart env.start answers d.wfp with
          | (wfp, status) =>
            let d := { d with symlink := true, wfp := wfp }
            if !ntSuccess status then (d.fail, status) else (d, statusSuccess)

/-- `KndUnload`: `mapped` says whether a user mapping of the ring is live. -/
def kndUnload (answers : UInt32 → Nat → NtStatus) (mapped : Bool) (d : DriverState) : DriverState :=
  if !d.context then d
  else
    { context := false
      ring := kndRingDestroy d.ring mapped
      deviceObject := false
      symlink := false
      wfp := kndWfpStop answers d.wfp }

/-- The context and the ring are freed only when the engine has none of the callouts. -/
def DriverState.Outlives (d : DriverState) : Prop :=
  d.context = false ∨ d.ring = false → d.wfp.live = []

/-- The callouts whose registration succeeds, up to the first step that fails. -/
def registered (callout : Callout → CalloutAnswer) : List Callout → List Callout
  | [] => []
  | c :: cs =>
    let a := callout c
    if !ntSuccess a.register then []
    else if !ntSuccess a.calloutAdd || !ntSuccess a.filterAdd then [c]
    else c :: registered callout cs

/-- The callouts that `KndWfpStart` registers, once the steps before them succeed. -/
def StartEnv.registered (env : StartEnv) : List Callout :=
  if ntSuccess env.engineOpen && ntSuccess env.transactionBegin && ntSuccess env.subLayerAdd then
    Driver.registered env.callout callouts
  else []

/-- The callouts that `DriverEntry` registers. -/
def EntryEnv.registered (env : EntryEnv) : List Callout :=
  if env.pool && ntSuccess env.ringCreate && ntSuccess env.createDevice &&
      ntSuccess env.createSymbolicLink then
    env.start.registered
  else []

/-- The callout is let go within 250 tries, the ones before it finding it busy. -/
def Drains (answers : Nat → NtStatus) : Prop :=
  ∃ k < 250, ntSuccess (answers k) = true ∧ ∀ j < k, answers j = statusDeviceBusy

/-! ### Unregistering -/

theorem unregisterLoop_iff {answers : Nat → NtStatus} {left tries : Nat} :
    ntSuccess (unregisterLoop answers left tries) = true ↔
      ∃ k ≤ left, ntSuccess (answers (tries + k)) = true ∧
        ∀ j < k, answers (tries + j) = statusDeviceBusy := by
  have hbusy : ntSuccess statusDeviceBusy = false := by decide
  induction left generalizing tries with
  | zero =>
    rw [unregisterLoop]
    constructor
    · intro h
      exact ⟨0, le_rfl, h, nofun⟩
    · rintro ⟨k, hk, h, -⟩
      obtain rfl : k = 0 := by omega
      exact h
  | succ left ih =>
    rw [unregisterLoop]
    by_cases hfirst : answers tries = statusDeviceBusy
    · rw [if_pos hfirst]
      refine ih.trans ⟨?_, ?_⟩
      · rintro ⟨k, hk, h, hbefore⟩
        refine ⟨k + 1, by omega, by rwa [show tries + (k + 1) = tries + 1 + k by omega], fun j hj => ?_⟩
        cases j with
        | zero => exact hfirst
        | succ j =>
          have := hbefore j (by omega)
          rwa [show tries + (j + 1) = tries + 1 + j by omega]
      · rintro ⟨k, hk, h, hbefore⟩
        cases k with
        | zero =>
          rw [Nat.add_zero, hfirst, hbusy] at h
          contradiction
        | succ k =>
          refine ⟨k, by omega, by rwa [show tries + 1 + k = tries + (k + 1) by omega], fun j hj => ?_⟩
          have := hbefore (j + 1) (by omega)
          rwa [show tries + 1 + j = tries + (j + 1) by omega]
    · rw [if_neg hfirst]
      constructor
      · intro h
        exact ⟨0, Nat.zero_le _, h, nofun⟩
      · rintro ⟨k, -, h, hbefore⟩
        cases k with
        | zero => exact h
        | succ k => exact absurd (hbefore 0 (by omega)) hfirst

theorem unregisterCallout_iff {answers : Nat → NtStatus} :
    ntSuccess (unregisterCallout answers) = true ↔ Drains answers := by
  rw [unregisterCallout, unregisterLoop_iff, Drains]
  simp only [Nat.zero_add, Nat.lt_succ_iff]

/-- The callouts that the engine does not let go stay with it. -/
theorem unregisterCallouts_append (answers : UInt32 → Nat → NtStatus) {kept ids : List UInt32}
    (hkept : ∀ id ∈ kept, ntSuccess (unregisterCallout (answers id)) = false) :
    unregisterCallouts answers ids (kept ++ ids) =
      kept ++ ids.filter fun id => !ntSuccess (unregisterCallout (answers id)) := by
  induction ids generalizing kept with
  | nil => simp [unregisterCallouts]
  | cons id ids ih =>
    rw [unregisterCallouts, List.foldl_cons, ← unregisterCallouts]
    cases hid : ntSuccess (unregisterCallout (answers id)) with
    | true =>
      have hmem : id ∉ kept := fun hmem => by
        rw [hkept id hmem] at hid
        contradiction
      rw [if_pos rfl, List.erase_append_right _ hmem, List.erase_cons_head, ih hkept,
        List.filter_cons_of_neg (by simp [hid])]
    | false =>
      rw [if_neg (by decide), ← List.singleton_append, ← List.append_assoc, ih ?_,
        List.singleton_append, List.filter_cons_of_pos (by simp [hid]), List.append_assoc,
        List.singleton_append]
      intro id' hid'
      rcases List.mem_append.mp hid' with h | h
      · exact hkept id' h
      · rw [List.mem_singleton.mp h]
        exact hid

theorem unregisterCallouts_eq_nil_iff {answers : UInt32 → Nat → NtStatus} {ids : List UInt32} :
    unregisterCallouts answers ids ids = [] ↔ ∀ id ∈ ids, Drains (answers id) := by
  have hfilter : unregisterCallouts answers ids ids =
      ids.filter fun id => !ntSuccess (unregisterCallout (answers id)) :=
    unregisterCallouts_append answers (List.forall_mem_nil _)
  rw [hfilter, List.filter_eq_nil_iff]
  simp only [Bool.not_eq_true', Bool.not_eq_false, unregisterCallout_iff]

/-! ### Registering -/

/-- Every callout is recorded. -/
structure Wfp.Recorded (w : Wfp) (ids : List UInt32) : Prop where
  live : w.live = ids
  calloutIds : w.calloutIds = ids

@[simp] theorem Wfp.setStreamId_live (w : Wfp) (c : Callout) (id : UInt32) :
    (w.setStreamId c id).live = w.live := by cases c <;> rfl

@[simp] theorem Wfp.setStreamId_calloutIds (w : Wfp) (c : Callout) (id : UInt32) :
    (w.setStreamId c id).calloutIds = w.calloutIds := by cases c <;> rfl

theorem kndRegisterCallout_ok {w : Wfp} {ids : List UInt32} (h : w.Recorded ids)
    (hroom : ids.length < kndMaxCallouts) (c : Callout) {a : CalloutAnswer}
    (hregister : ntSuccess a.register = true) :
    (kndRegisterCallout w c a).1.Recorded (ids ++ [a.calloutId]) ∧
      ntSuccess (kndRegisterCallout w c a).2 = (ntSuccess a.calloutAdd && ntSuccess a.filterAdd) := by
  have hids := h.calloutIds
  have hlive := h.live
  simp only [kndRegisterCallout, hregister, Bool.not_true, Bool.false_eq_true, if_false,
    Wfp.setStreamId_calloutIds, hids, hlive, if_pos hroom]
  cases hadd : ntSuccess a.calloutAdd with
  | true => exact ⟨⟨rfl, rfl⟩, rfl⟩
  | false => exact ⟨⟨rfl, rfl⟩, hadd⟩

/-- The callouts that were registered are those whose ids are recorded. -/
theorem registerCallouts_recorded (callout : Callout → CalloutAnswer) {cs : List Callout} {w : Wfp}
    {ids : List UInt32} (h : w.Recorded ids) (hroom : ids.length + cs.length ≤ kndMaxCallouts) :
    (registerCallouts callout w cs).1.Recorded
      (ids ++ (registered callout cs).map fun c => (callout c).calloutId) := by
  induction cs generalizing w ids with
  | nil => simpa [registerCallouts, registered] using h
  | cons c cs ih =>
    rw [List.length_cons] at hroom
    rw [registerCallouts, registered]
    cases hregister : ntSuccess (callout c).register with
    | false =>
      have hsame : kndRegisterCallout w c (callout c) = (w, (callout c).register) := by
        simp [kndRegisterCallout, hregister]
      simpa [hsame, hregister] using h
    | true =>
      obtain ⟨hrecorded, hstatus⟩ := kndRegisterCallout_ok h (by omega) c hregister
      simp only [Bool.not_true, Bool.false_eq_true, if_false]
      rw [hstatus]
      cases hboth : ntSuccess (callout c).calloutAdd && ntSuccess (callout c).filterAdd with
      | false => simpa [← Bool.not_and, hboth] using hrecorded
      | true =>
        have hrest := ih hrecorded (by simp; omega)
        simpa [← Bool.not_and, hboth, List.append_assoc] using hrest

/-- After a failed start the engine has what it refused to let go; after a successful one it has
the callouts that the context records. -/
def Started (answers : UInt32 → Nat → NtStatus) (ids : List UInt32) (r : Wfp × NtStatus) : Prop :=
  ntSuccess r.2 = false ∧ r.1.live = unregisterCallouts answers ids ids ∨
    ntSuccess r.2 = true ∧ r.1.Recorded ids

theorem started_stop {answers : UInt32 → Nat → NtStatus} {ids : List UInt32} {w : Wfp}
    (h : w.Recorded ids) {status : NtStatus} (hstatus : ntSuccess status = false) :
    Started answers ids (kndWfpStop answers w, status) := by
  refine .inl ⟨hstatus, ?_⟩
  rw [kndWfpStop, h.calloutIds, h.live]

theorem kndWfpStart_started (env : StartEnv) (answers : UInt32 → Nat → NtStatus) :
    Started answers (env.registered.map fun c => (env.callout c).calloutId)
      (kndWfpStart env answers Wfp.zero) := by
  rw [kndWfpStart, StartEnv.registered]
  cases hopen : ntSuccess env.engineOpen with
  | false => exact .inl ⟨hopen, rfl⟩
  | true =>
  cases hbegin : ntSuccess env.transactionBegin with
  | false => exact started_stop ⟨rfl, rfl⟩ hbegin
  | true =>
  cases hsub : ntSuccess env.subLayerAdd with
  | false => exact started_stop ⟨rfl, rfl⟩ hsub
  | true =>
  simp only [Bool.not_true, Bool.false_eq_true, if_false, Bool.and_self, if_true]
  generalize hresult : registerCallouts env.callout _ callouts = result
  have hrecorded : result.1.Recorded
      ((registered env.callout callouts).map fun c => (env.callout c).calloutId) := by
    rw [← hresult, ← List.nil_append (List.map _ _)]
    exact registerCallouts_recorded env.callout ⟨rfl, rfl⟩ (by decide)
  obtain ⟨w, status⟩ := result
  simp only
  cases hstatus : ntSuccess status with
  | false => exact started_stop hrecorded hstatus
  | true =>
  cases hcommit : ntSuccess env.transactionCommit with
  | false => exact started_stop hrecorded hcommit
  | true => exact .inr ⟨rfl, hrecorded.live, hrecorded.calloutIds⟩

/-- What `DriverEntry` leaves: nothing but the callouts that the engine refused to let go, or a
loaded driver that knows its callouts. -/
theorem driverEntry_cases (env : EntryEnv) (answers : UInt32 → Nat → NtStatus) :
    let ids := env.registered.map fun c => (env.start.callout c).calloutId
    (ntSuccess (driverEntry env answers).2 = false ∧ (driverEntry env answers).1.context = false ∧
        (driverEntry env answers).1.wfp.live = unregisterCallouts answers ids ids) ∨
      ntSuccess (driverEntry env answers).2 = true ∧ (driverEntry env answers).1.context = true ∧
        (driverEntry env answers).1.ring = true ∧ (driverEntry env answers).1.wfp.Recorded ids := by
  rw [driverEntry, EntryEnv.registered]
  cases env.pool with
  | false => exact .inl ⟨rfl, rfl, rfl⟩
  | true =>
  cases hring : ntSuccess env.ringCreate with
  | false => exact .inl ⟨hring, rfl, rfl⟩
  | true =>
  cases hdevice : ntSuccess env.createDevice with
  | false => exact .inl ⟨hdevice, rfl, rfl⟩
  | true =>
  cases hlink : ntSuccess env.createSymbolicLink with
  | false => exact .inl ⟨hlink, rfl, rfl⟩
  | true =>
  simp only [Bool.not_true, Bool.false_eq_true, if_false, Bool.and_self, if_true]
  have hstarted := kndWfpStart_started env.start answers
  rw [DriverState.unloaded]
  generalize kndWfpStart env.start answers Wfp.zero = result at hstarted ⊢
  obtain ⟨wfp, status⟩ := result
  obtain ⟨hfail, hlive⟩ | ⟨hok, hrecorded⟩ := hstarted
  · simp only at hfail
    simp only [hfail]
    exact .inl ⟨hfail, rfl, hlive⟩
  · simp only at hok
    simp only [hok]
    exact .inr ⟨rfl, rfl, rfl, hrecorded⟩

/-- The driver outlives its callouts, by either way out, exactly when the engine lets each
registered one go in time. -/
theorem outlives_iff (env : EntryEnv) (answers : UInt32 → Nat → NtStatus) (mapped : Bool) :
    ((driverEntry env answers).1.Outlives ∧
      (ntSuccess (driverEntry env answers).2 = true →
        (kndUnload answers mapped (driverEntry env answers).1).Outlives)) ↔
      ∀ c ∈ env.registered, Drains (answers (env.start.callout c).calloutId) := by
  rw [← List.forall_mem_map (P := fun id => Drains (answers id)), ← unregisterCallouts_eq_nil_iff]
  obtain ⟨hfail, hcontext, hlive⟩ | ⟨hok, hcontext, hring, hrecorded⟩ := driverEntry_cases env answers
  · rw [DriverState.Outlives, hcontext, hlive, hfail]
    simp
  · rw [DriverState.Outlives, DriverState.Outlives, kndUnload, hcontext, hring, hok]
    simp [kndWfpStop, hrecorded.live, hrecorded.calloutIds]

/-- Every step of the start succeeds, and the callouts get the ids 1 to 5. -/
def smoothEntry : EntryEnv where
  pool := true
  ringCreate := 0
  createDevice := 0
  createSymbolicLink := 0
  start :=
    { engineOpen := 0, redirectHandleCreate := 0, transactionBegin := 0, subLayerAdd := 0,
      callout := fun c => ⟨0, UInt32.ofNat (callouts.idxOf c + 1), 0, 0⟩, transactionCommit := 0 }

/-- A flow that stays open keeps its callout busy, and the context is freed under it. -/
theorem unload_frees_live_callout : ¬ ∀ env answers mapped,
    (driverEntry env answers).1.Outlives ∧
      (ntSuccess (driverEntry env answers).2 = true →
        (kndUnload answers mapped (driverEntry env answers).1).Outlives) := by
  intro h
  have hunload := (h smoothEntry (fun _ _ => statusDeviceBusy) false).2 (by decide) (.inl rfl)
  exact absurd hunload (by decide +kernel)

end NetDebugger.Driver
