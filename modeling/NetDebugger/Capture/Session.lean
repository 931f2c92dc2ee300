import NetDebugger.Driver.Control
import NetDebugger.Lib.Runs

/-! The capture session across the application and the driver: `Connect`, the Start and Stop of the
menu and of the control panel in `ui.cpp`, `wWinMain` and the driver's `CaptureActive`.  The driver
outlives the application, which forgets, and other programs switch the capture too.  The panel's LIVE
tells the truth in exactly the runs in which neither gets in between. -/

namespace NetDebugger.Capture.Session

open Lib NetDebugger.Driver

/-- `KndClient`: whether `h_` is a handle, and whether `ring_` is set. -/
structure Client where
  isOpen : Bool
  ring : Bool
deriving DecidableEq

/-- How `mapRing` ends: the request fails, the header is not the driver's, or all is well. -/
inductive MapAnswer
  | refused
  | badHeader
  | mapped
deriving DecidableEq

/-- What `AppState` holds of the session, and the client. -/
structure App where
  deviceConnected : Bool
  ringMapped : Bool
  capturing : Bool
  status : String
  client : Client
deriving DecidableEq

/-- `driver` is the `CaptureActive` of a loaded driver, and `others` the handles that other programs
have. -/
structure Machine where
  driver : Option UInt32
  others : Nat
  app : Option App
deriving DecidableEq

/-! ### The client -/

/-- `granted` is whether Windows opens the device. -/
def Client.openDevice (c : Client) (granted : Bool) : Client :=
  if c.isOpen then c else { c with isOpen := granted }

def Client.mapRing (c : Client) (answer : MapAnswer) : Client × Bool :=
  if !c.isOpen then (c, false)
  else
    match answer with
    | .refused => (c, false)
    | .badHeader => ({ c with ring := false }, false)
    | .mapped => ({ c with ring := true }, true)

/-- `startCapture` with 1 and `stopCapture` with 0. -/
def Client.setCapture (c : Client) (driver : Option UInt32) (active : UInt32) :
    Option UInt32 × Bool :=
  if !c.isOpen then (driver, false)
  else
    match driver with
    | none => (none, false)
    | some _ => (some active, true)

/-! ### The application -/

def connect (a : App) (granted : Bool) (answer : MapAnswer) : App :=
  let client := a.client.openDevice granted
  if !client.isOpen then
    { a with
      client
      deviceConnected := false
      ringMapped := false
      status := "Cannot open \\\\.\\KndCap — is knd.sys loaded? (sc start knd)" }
  else
    let (client, ringMapped) := client.mapRing answer
    { a with
      client
      deviceConnected := true
      ringMapped
      status :=
        if ringMapped then
          "Connected — driver v" ++ toString kndDriverVersion ++ ", protocol v" ++
            toString kndProtocolVersion ++ ", ring mapped"
        else "Connected (driver v" ++ toString kndDriverVersion ++ ") but ring map failed" }

/-- `wWinMain` up to its loop. -/
def wWinMain (granted : Bool) (answer : MapAnswer) : App :=
  let client := Client.openDevice ⟨false, false⟩ granted
  let (client, ringMapped) := client.mapRing answer
  { deviceConnected := ringMapped
    ringMapped
    capturing := false
    status :=
      if ringMapped then "Connected — ring mapped"
      else "Driver not found — load knd.sys in the VM, then Reconnect"
    client }

/-- Start where nothing is captured, and Stop otherwise. -/
def startStop (m : Machine) (a : App) : Machine :=
  if a.capturing then
    let (driver, ok) := a.client.setCapture m.driver 0
    { m with driver, app := some (if ok then { a with capturing := false } else a) }
  else
    let (driver, ok) := a.client.setCapture m.driver 1
    { m with driver, app := some (if ok then { a with capturing := true } else a) }

/-- The green LIVE of `DrawControl`. -/
def App.live (a : App) : Bool := a.deviceConnected && a.capturing

/-! ### The events -/

inductive Event
  | loadDriver
  /-- `KndUnload`: Windows waits for the last handle. -/
  | unloadDriver
  | launch (granted : Bool) (answer : MapAnswer)
  /-- `Connect`, of the panel, the menu and the settings. -/
  | connect (granted : Bool) (answer : MapAnswer)
  /-- A click on Start or Stop, whichever is offered. -/
  | startStop
  /-- The end of `wWinMain`, or of the process. The capture goes on. -/
  | exit
  | othersOpen
  | othersClose
  /-- Another program's START or STOP. -/
  | othersSet (active : Bool)

def step (m : Machine) : Event → Option Machine
  | .loadDriver => if m.driver = none then some { m with driver := some 0 } else none
  | .unloadDriver =>
    if m.driver ≠ none ∧ m.others = 0 ∧ ∀ a ∈ m.app, a.client.isOpen = false then
      some { m with driver := none }
    else none
  | .launch granted answer =>
    if m.app = none ∧ (granted = true → m.driver ≠ none) then
      some { m with app := some (wWinMain granted answer) }
    else none
  | .connect granted answer =>
    if granted = true → m.driver ≠ none then
      m.app.map fun a => { m with app := some (connect a granted answer) }
    else none
  | .startStop => m.app.bind fun a => if a.deviceConnected then some (startStop m a) else none
  | .exit => m.app.map fun _ => { m with app := none }
  | .othersOpen => if m.driver ≠ none then some { m with others := m.others + 1 } else none
  | .othersClose => if m.others ≠ 0 then some { m with others := m.others - 1 } else none
  | .othersSet active =>
    if m.others ≠ 0 then some { m with driver := some (if active then 1 else 0) } else none

def boot : Machine := ⟨none, 0, none⟩

/-- A connected panel shows LIVE exactly when the driver captures. -/
def Truthful (m : Machine) : Prop :=
  ∀ a ∈ m.app, a.deviceConnected = true → (a.live = true ↔ m.driver = some 1)

/-- The application is connected only to a driver that does not capture, and nobody else switches the
capture away from what a connected panel shows. -/
def Careful (m : Machine) : Event → Prop
  | .launch granted answer => granted = true → answer = .mapped → m.driver ≠ some 1
  | .connect granted _ => ∀ a ∈ m.app, a.deviceConnected = false →
      a.client.isOpen = true ∨ granted = true → m.driver ≠ some 1
  | .othersSet active => ∀ a ∈ m.app, a.deviceConnected = true → a.capturing = active
  | _ => True

instance (m : Machine) : Decidable (Truthful m) :=
  inferInstanceAs (Decidable (∀ a ∈ m.app, a.deviceConnected = true →
    (a.live = true ↔ m.driver = some 1)))

instance (m : Machine) : ∀ e, Decidable (Careful m e)
  | .launch granted answer =>
    inferInstanceAs (Decidable (granted = true → answer = .mapped → m.driver ≠ some 1))
  | .connect granted _ => inferInstanceAs (Decidable (∀ a ∈ m.app, a.deviceConnected = false →
      a.client.isOpen = true ∨ granted = true → m.driver ≠ some 1))
  | .othersSet active =>
    inferInstanceAs (Decidable (∀ a ∈ m.app, a.deviceConnected = true → a.capturing = active))
  | .loadDriver | .unloadDriver | .startStop | .exit | .othersOpen | .othersClose => isTrue trivial

/-! ### What always holds -/

/-- A handle keeps the driver loaded, and the flags are backed by the client. -/
structure App.Backed (a : App) (driver : Option UInt32) : Prop where
  opened : a.client.isOpen = true → driver ≠ none
  connected : a.deviceConnected = true → a.client.isOpen = true
  mapped : a.ringMapped = true → a.deviceConnected = true ∧ a.client.ring = true
  idle : a.deviceConnected = false → a.capturing = false

structure Sound (m : Machine) : Prop where
  others : m.others ≠ 0 → m.driver ≠ none
  backed : ∀ a ∈ m.app, a.Backed m.driver

theorem App.Backed.congr {a : App} {driver driver' : Option UInt32} (h : a.Backed driver)
    (hdriver : driver ≠ none → driver' ≠ none) : a.Backed driver' :=
  ⟨fun ho => hdriver (h.opened ho), h.connected, h.mapped, h.idle⟩

theorem wWinMain_backed {driver : Option UInt32} {granted : Bool}
    (h : granted = true → driver ≠ none) (answer : MapAnswer) :
    (wWinMain granted answer).Backed driver := by
  cases granted with
  | false => constructor <;> simp [wWinMain, Client.openDevice, Client.mapRing]
  | true =>
    have hdriver : driver ≠ none := h rfl
    cases answer <;> constructor <;> simp [wWinMain, Client.openDevice, Client.mapRing, hdriver]

theorem openDevice_isOpen (c : Client) (granted : Bool) :
    (c.openDevice granted).isOpen = true ↔ c.isOpen = true ∨ granted = true := by
  rw [Client.openDevice]
  split
  · next hopen => simp [hopen]
  · next hclosed => simp [hclosed]

theorem mapRing_isOpen (c : Client) (answer : MapAnswer) :
    (c.mapRing answer).1.isOpen = c.isOpen := by
  unfold Client.mapRing
  split
  · rfl
  · cases answer <;> rfl

theorem mapRing_ring {c : Client} {answer : MapAnswer} (h : (c.mapRing answer).2 = true) :
    (c.mapRing answer).1.ring = true := by
  unfold Client.mapRing at h ⊢
  split at h
  · cases h
  · next hopen =>
    rw [if_neg hopen]
    cases answer
    · cases h
    · cases h
    · rfl

/-- `Connect` succeeds when there is a handle, and leaves `capturing` as it is. -/
theorem connect_cases (a : App) (granted : Bool) (answer : MapAnswer) :
    ((connect a granted answer).deviceConnected = true ↔
      a.client.isOpen = true ∨ granted = true) ∧
    (connect a granted answer).capturing = a.capturing ∧
    ((connect a granted answer).client.isOpen = true ↔
      a.client.isOpen = true ∨ granted = true) ∧
    ((connect a granted answer).ringMapped = true →
      (connect a granted answer).deviceConnected = true ∧
        (connect a granted answer).client.ring = true) := by
  rw [← openDevice_isOpen]
  rw [connect]
  cases hopen : (a.client.openDevice granted).isOpen with
  | false => simp [hopen]
  | true =>
    simpa [mapRing_isOpen, hopen] using @mapRing_ring (a.client.openDevice granted) answer

/-- What Start or Stop does to a connected application. -/
theorem startStop_eq {m : Machine} {a : App} (hopen : a.client.isOpen = true)
    (hdriver : m.driver ≠ none) : startStop m a = { m with
      driver := some (if a.capturing then 0 else 1)
      app := some { a with capturing := !a.capturing } } := by
  obtain ⟨d, hd⟩ := Option.ne_none_iff_exists'.mp hdriver
  cases hcapturing : a.capturing <;>
    simp [startStop, Client.setCapture, hopen, hd, hcapturing]

theorem Sound.step {m t : Machine} {e : Event} (h : Sound m) (hstep : step m e = some t) :
    Sound t := by
  cases e with
  | loadDriver =>
    simp only [Session.step, Option.ite_none_right_eq_some, Option.some.injEq] at hstep
    obtain ⟨-, rfl⟩ := hstep
    exact ⟨fun _ => Option.some_ne_none 0,
      fun a ha => (h.backed a ha).congr fun _ => Option.some_ne_none 0⟩
  | unloadDriver =>
    simp only [Session.step, Option.ite_none_right_eq_some, Option.some.injEq] at hstep
    obtain ⟨⟨-, hothers, hclosed⟩, rfl⟩ := hstep
    refine ⟨fun hne => absurd hothers hne, fun a ha => ?_⟩
    obtain ⟨-, hconnected, hmapped, hidle⟩ := h.backed a ha
    exact ⟨fun hopen => absurd hopen (by simp [hclosed a ha]), hconnected, hmapped, hidle⟩
  | launch granted answer =>
    simp only [Session.step, Option.ite_none_right_eq_some, Option.some.injEq] at hstep
    obtain ⟨⟨-, hgranted⟩, rfl⟩ := hstep
    refine ⟨h.others, fun a ha => ?_⟩
    obtain rfl := Option.some.inj ha
    exact wWinMain_backed hgranted answer
  | connect granted answer =>
    simp only [Session.step, Option.ite_none_right_eq_some, Option.map_eq_some_iff] at hstep
    obtain ⟨hgranted, a, ha, rfl⟩ := hstep
    obtain ⟨hconn, hcapturing, hopen, hmapped⟩ := connect_cases a granted answer
    obtain ⟨hbopen, hbconn, -, hbidle⟩ := h.backed a ha
    refine ⟨h.others, fun b hb => ?_⟩
    obtain rfl := Option.some.inj hb
    refine ⟨fun ho => (hopen.mp ho).elim hbopen hgranted, fun hc => hopen.mpr (hconn.mp hc),
      hmapped, fun hc => hcapturing.trans (hbidle ?_)⟩
    by_contra hbc
    have hyes := hconn.mpr (Or.inl (hbconn (by simpa using hbc)))
    rw [hc] at hyes
    cases hyes
  | startStop =>
    simp only [Session.step, Option.bind_eq_some_iff, Option.ite_none_right_eq_some,
      Option.some.injEq] at hstep
    obtain ⟨a, ha, hconn, rfl⟩ := hstep
    obtain ⟨hopen, hbconn, hmapped, -⟩ := h.backed a ha
    rw [startStop_eq (hbconn hconn) (hopen (hbconn hconn))]
    refine ⟨fun _ => Option.some_ne_none _, fun b hb => ?_⟩
    obtain rfl := Option.some.inj hb
    refine ⟨fun _ => Option.some_ne_none _, hbconn, hmapped, fun hnot => ?_⟩
    rw [hconn] at hnot
    cases hnot
  | exit =>
    obtain ⟨a, -, rfl⟩ := Option.map_eq_some_iff.mp hstep
    exact ⟨h.others, fun b hb => absurd hb (Option.not_mem_none b)⟩
  | othersOpen =>
    simp only [Session.step, Option.ite_none_right_eq_some, Option.some.injEq] at hstep
    obtain ⟨hdriver, rfl⟩ := hstep
    exact ⟨fun _ => hdriver, h.backed⟩
  | othersClose =>
    simp only [Session.step, Option.ite_none_right_eq_some, Option.some.injEq] at hstep
    obtain ⟨hothers, rfl⟩ := hstep
    exact ⟨fun _ => h.others hothers, h.backed⟩
  | othersSet active =>
    simp only [Session.step, Option.ite_none_right_eq_some, Option.some.injEq] at hstep
    obtain ⟨-, rfl⟩ := hstep
    exact ⟨fun _ => Option.some_ne_none _,
      fun a ha => (h.backed a ha).congr fun _ => Option.some_ne_none _⟩

theorem startStop_step {m : Machine} {a : App} (h : Sound m) (ha : m.app = some a)
    (hconn : a.deviceConnected = true) : step m .startStop = some { m with
      driver := some (if a.capturing then 0 else 1)
      app := some { a with capturing := !a.capturing } } := by
  have hb := h.backed a ha
  have hopen := hb.connected hconn
  simp only [step, ha, Option.bind_some, if_pos hconn]
  rw [startStop_eq hopen (hb.opened hopen)]

/-! ### Runs -/

theorem boot_sound : Sound boot :=
  ⟨fun h => absurd rfl h, fun a ha => absurd ha (Option.not_mem_none a)⟩

/-- A step shows what is not so exactly when it is not a careful one. -/
theorem step_truthful {m t : Machine} {e : Event} (h : Sound m) (hm : Truthful m)
    (hstep : step m e = some t) : Truthful t ↔ Careful m e := by
  cases e with
  | loadDriver =>
    simp only [step, Option.ite_none_right_eq_some, Option.some.injEq] at hstep
    obtain ⟨hnone, rfl⟩ := hstep
    refine iff_of_true (fun a ha hconn => ?_) trivial
    have hb := h.backed a ha
    exact absurd hnone (hb.opened (hb.connected hconn))
  | unloadDriver =>
    simp only [step, Option.ite_none_right_eq_some, Option.some.injEq] at hstep
    obtain ⟨⟨-, -, hclosed⟩, rfl⟩ := hstep
    refine iff_of_true (fun a ha hconn => ?_) trivial
    have hopen := (h.backed a ha).connected hconn
    rw [hclosed a ha] at hopen
    cases hopen
  | launch granted answer =>
    simp only [step, Option.ite_none_right_eq_some, Option.some.injEq] at hstep
    obtain ⟨-, rfl⟩ := hstep
    cases granted with
    | false => simp [Truthful, Careful, wWinMain, Client.openDevice, Client.mapRing]
    | true =>
      cases answer <;>
        simp [Truthful, Careful, wWinMain, Client.openDevice, Client.mapRing, App.live]
  | connect granted answer =>
    simp only [step, Option.ite_none_right_eq_some, Option.map_eq_some_iff] at hstep
    obtain ⟨-, a, ha, rfl⟩ := hstep
    obtain ⟨hconn, hcapturing, -, -⟩ := connect_cases a granted answer
    obtain ⟨-, hbconn, -, hbidle⟩ := h.backed a ha
    have htruth := hm a ha
    simp only [Truthful, Careful, ha, Option.mem_some_iff, forall_eq', hconn, App.live,
      hcapturing, Bool.and_eq_true] at htruth ⊢
    cases hdc : a.deviceConnected with
    | true =>
      refine iff_of_true (fun hopen => ?_) nofun
      have hsame := htruth hdc
      simp only [hdc, true_and] at hsame
      rw [← hsame]
      exact ⟨And.right, fun hc => ⟨hopen, hc⟩⟩
    | false => simp [hbidle hdc]
  | startStop =>
    have hclick := hstep
    simp only [step, Option.bind_eq_some_iff, Option.ite_none_right_eq_some] at hclick
    obtain ⟨a, ha, hconn, -⟩ := hclick
    rw [startStop_step h ha hconn] at hstep
    obtain rfl := Option.some.inj hstep
    refine iff_of_true (fun b hb _ => ?_) trivial
    obtain rfl := Option.some.inj hb
    cases hcapturing : a.capturing <;> simp [App.live, hconn]
  | exit =>
    obtain ⟨a, -, rfl⟩ := Option.map_eq_some_iff.mp hstep
    exact iff_of_true (fun b hb => absurd hb (Option.not_mem_none b)) trivial
  | othersOpen =>
    simp only [step, Option.ite_none_right_eq_some, Option.some.injEq] at hstep
    obtain ⟨-, rfl⟩ := hstep
    exact iff_of_true hm trivial
  | othersClose =>
    simp only [step, Option.ite_none_right_eq_some, Option.some.injEq] at hstep
    obtain ⟨-, rfl⟩ := hstep
    exact iff_of_true hm trivial
  | othersSet active =>
    simp only [step, Option.ite_none_right_eq_some, Option.some.injEq] at hstep
    obtain ⟨-, rfl⟩ := hstep
    refine forall₂_congr fun a _ => ?_
    refine forall_congr' fun hconn => ?_
    cases active <;> simp [App.live, hconn]

/-- The panel tells the truth all along a run exactly when all its steps are careful. -/
theorem live_iff {es : List Event} {t : Machine} (hrun : runEvents step boot es = some t) :
    (∀ pre m, pre <+: es → runEvents step boot pre = some m → Truthful m) ↔
      EachStep step Careful boot es :=
  runEvents_invariant_iff_with (fun _ _ _ (h : Sound _) _ hstep => h.step hstep)
    (fun _ _ _ h hm hstep => step_truthful h hm hstep) boot_sound
    (fun a ha => absurd ha (Option.not_mem_none a)) hrun

/-- A capture that is stopped before the application is left and started again. -/
def stoppedFirst : List Event :=
  [.loadDriver, .launch true .mapped, .startStop, .startStop, .exit, .launch true .mapped]

theorem live_iff_stoppedFirst :
    Truthful ((runEvents step boot stoppedFirst).getD boot) := by
  have hrun : runEvents step boot stoppedFirst =
      some ((runEvents step boot stoppedFirst).getD boot) := by
    decide
  exact (live_iff hrun).mpr (by decide) stoppedFirst _ (List.prefix_refl _) hrun

/-- The next start shows a capture that was left running as idle. -/
example : ¬Truthful ((runEvents step boot
    [.loadDriver, .launch true .mapped, .startStop, .exit, .launch true .mapped]).getD boot) := by
  decide

/-- Whatever others have done, one or two clicks bring the driver and the panel to what is wanted. -/
theorem live_regained {es : List Event} {t : Machine} (hrun : runEvents step boot es = some t)
    {a : App} (ha : t.app = some a) (hconn : a.deviceConnected = true) (active : Bool) :
    ∃ n ≤ 2, runEvents step t (List.replicate n .startStop) = some { t with
      driver := some (if active then 1 else 0), app := some { a with capturing := active } } := by
  have hsound : Sound t := runEvents_invariant (fun _ => True)
    (fun _ _ _ _ h hstep => Sound.step h hstep) boot_sound (fun _ _ => trivial) hrun
  have hfirst := startStop_step hsound ha hconn
  by_cases hsame : a.capturing = active
  · have hsecond := startStop_step (hsound.step hfirst) rfl hconn
    refine ⟨2, Nat.le_refl 2, runEvents_cons.mpr ⟨_, hfirst, runEvents_cons.mpr ⟨_, hsecond, ?_⟩⟩⟩
    cases active <;> simp [hsame]
  · refine ⟨1, Nat.le_succ 1, runEvents_cons.mpr ⟨_, hfirst, ?_⟩⟩
    cases active <;> simp [hsame]

end NetDebugger.Capture.Session
