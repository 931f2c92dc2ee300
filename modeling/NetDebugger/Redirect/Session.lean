import NetDebugger.Lib.Runs
import NetDebugger.Redirect

/-! The redirection as the user switches it.  The check box of `DrawMitm` sends it to the driver, the
proxy beside it starts and stops on its own, and the driver outlives the application. -/

namespace NetDebugger.Redirect

open Lib

/-! ### The proxy, the driver and Windows -/

deriving instance DecidableEq for RedirectState

/-- The part of `KndMitmProxy` that `start` and `stop` switch. -/
structure KndMitmProxy where
  running : Bool
  port : UInt16
deriving DecidableEq

/-- `KndMitmProxy::start` on a CA and a bind of the listening socket. -/
def KndMitmProxy.start (p : KndMitmProxy) (port : UInt16) (caReady bind : Bool) :
    Except String KndMitmProxy :=
  if p.running then .ok p
  else if !caReady then .error "CA not ready"
  else if !bind then .error ("bind failed on 127.0.0.1:" ++ toString port.toNat)
  else .ok { running := true, port := port }

def KndMitmProxy.stop (p : KndMitmProxy) : KndMitmProxy := { p with running := false }

/-- The handle of `KndClient`. It is stale once the driver it was opened on is gone. -/
inductive Handle
  | invalid | live | stale
deriving DecidableEq

/-- `KndClient::open`: whether Windows lets the application open the device is its own answer. -/
def Handle.openDevice (h : Handle) (driver : Option RedirectState) (access : Bool) : Handle :=
  match h with
  | .invalid => if driver.isSome && access then .live else .invalid
  | h => h

/-- `KndClient::setRedirect`: the driver afterwards, and whether the request reached it. -/
def Handle.setRedirect (h : Handle) (driver : Option RedirectState) (enable : Bool)
    (proxyPort : UInt16) : Option RedirectState × Bool :=
  match h, driver with
  | .live, some d => (some (kndSetRedirect d { enable := if enable then 1 else 0, proxyPort }), true)
  | _, driver => (driver, false)

/-- The registry values that `SetSystemProxy` writes. -/
structure InternetSettings where
  proxyEnable : Bool
  proxyServer : String
deriving DecidableEq

/-- `SetSystemProxy`: `opened` says whether the key could be opened. -/
def setSystemProxy (s : InternetSettings) (opened enable : Bool) (hostPort : String) :
    InternetSettings :=
  if !opened then s
  else { proxyEnable := enable, proxyServer := if enable then hostPort else s.proxyServer }

/-! ### The application -/

/-- What `AppState`, `KndClient`, `KndMitmCa` and `KndMitmProxy` hold of it. -/
structure App where
  mitmRunning : Bool
  proxyPort : Int
  useSystemProxy : Bool
  wfpRedirect : Bool
  mitmStatus : String
  client : Handle
  caReady : Bool
  proxy : KndMitmProxy
deriving DecidableEq

/-- The machine: the application when it runs, the driver when it is loaded. -/
structure Machine where
  app : Option App
  driver : Option RedirectState
  settings : InternetSettings
deriving DecidableEq

/-- What the user does to the MITM panel in one frame, with the answers of Windows to it. -/
inductive Click
  | proxyPort (value : Int)
  | startStop (bind opened : Bool)
  | useSystemProxy
  | wfpRedirect

/-- The port field is clamped in every frame, before the buttons below it. -/
def clampPort (p : Int) : Int := min (max p 1) 65535

/-- `(uint16_t)st.proxyPort`. -/
def App.portShown (a : App) : UInt16 := UInt16.ofInt (clampPort a.proxyPort)

def localhost (port : Int) : String := "127.0.0.1:" ++ toString port

/-- The start button. -/
def startMitm (m : Machine) (a : App) (bind opened : Bool) : Machine :=
  match a.proxy.start (UInt16.ofInt a.proxyPort) a.caReady bind with
  | .ok proxy =>
    { m with
      app := some { a with
        proxy := proxy
        mitmStatus := "MITM proxy: listening on " ++ localhost a.proxyPort }
      settings :=
        if a.useSystemProxy then setSystemProxy m.settings opened true (localhost a.proxyPort)
        else m.settings }
  | .error e => { m with app := some { a with mitmStatus := "start failed: " ++ e } }

/-- The stop button. It gives the system proxy back, and leaves the driver alone. -/
def stopMitm (m : Machine) (a : App) (opened : Bool) : Machine :=
  { m with
    app := some { a with proxy := a.proxy.stop, mitmStatus := "MITM proxy: stopped" }
    settings := setSystemProxy m.settings opened false "" }

/-- The check box of the redirect. Whether the request arrived is not looked at. -/
def toggleRedirect (m : Machine) (a : App) : Machine :=
  { m with
    app := some { a with wfpRedirect := !a.wfpRedirect }
    driver := (a.client.setRedirect m.driver (!a.wfpRedirect) (UInt16.ofInt a.proxyPort)).1 }

/-- `DrawMitm`, with at most one widget used in a frame. -/
def drawMitm (m : Machine) (a : App) (click : Option Click) : Machine :=
  let a := { a with mitmRunning := a.proxy.running }
  let a :=
    match click with
    | some (.proxyPort v) => if a.mitmRunning then a else { a with proxyPort := v }
    | _ => a
  let a := { a with proxyPort := clampPort a.proxyPort }
  match click with
  | some (.startStop bind opened) =>
    if !a.mitmRunning then startMitm m a bind opened else stopMitm m a opened
  | some .useSystemProxy => { m with app := some { a with useSystemProxy := !a.useSystemProxy } }
  | some .wfpRedirect => toggleRedirect m a
  | _ => { m with app := some a }

/-- `wWinMain` up to its loop: the saved settings, the CA, and the driver if it can be opened.
`--mitm` starts the proxy at once. -/
def wWinMain (driver : Option RedirectState) (proxyPort : Int)
    (useSystemProxy caReady mitmFromCmd bind access : Bool) : App :=
  let proxy : KndMitmProxy := { running := false, port := 0 }
  { mitmRunning := false
    proxyPort := proxyPort
    useSystemProxy := useSystemProxy
    wfpRedirect := false
    mitmStatus := "MITM proxy: stopped"
    client := Handle.invalid.openDevice driver access
    caReady := caReady
    proxy :=
      if mitmFromCmd then
        match proxy.start 8888 caReady bind with
        | .ok started => started
        | .error _ => proxy
      else proxy }

/-! ### The events -/

inductive Event
  /-- `DriverEntry` with a zeroed context, and a redirect handle if the filter engine gave one. -/
  | loadDriver (redirectHandleCreated : Bool)
  /-- The driver is unloaded or lost, also under an open handle. -/
  | loseDriver
  | launch (proxyPort : Int) (useSystemProxy caReady mitmFromCmd bind access : Bool)
  /-- `Connect`. -/
  | connect (access : Bool)
  | frame (click : Option Click)
  /-- The end of `wWinMain`, or of the process. `IRP_MJ_CLEANUP` unmaps the ring and no more. -/
  | exit

def step (m : Machine) : Event → Option Machine
  | .loadDriver created =>
    match m.driver with
    | some _ => none
    | none =>
      some { m with
        driver := some
          { redirectEnable := false, redirectPort := 0, redirectHandleCreated := created } }
  | .loseDriver =>
    some { m with
      driver := none
      app := m.app.map fun a =>
        { a with client := if a.client = .live then .stale else a.client } }
  | .launch port useSystemProxy caReady mitmFromCmd bind access =>
    match m.app with
    | some _ => none
    | none =>
      some { m with
        app := some (wWinMain m.driver port useSystemProxy caReady mitmFromCmd bind access) }
  | .connect access => m.app.map fun a =>
    { m with app := some { a with client := a.client.openDevice m.driver access } }
  | .frame click => m.app.map fun a => drawMitm m a click
  | .exit => m.app.map fun _ => { m with app := none }

/-- Before anything has run. -/
def boot (settings : InternetSettings) : Machine := { app := none, driver := none, settings }

/-- No connect is redirected to a port on which the proxy does not listen. -/
def NoDeadPort (m : Machine) : Prop :=
  ∀ d ∈ m.driver, d.redirectEnable = true →
    ∃ a ∈ m.app, a.proxy.running = true ∧ a.proxy.port = d.redirectPort

/-- The driver does not redirect. -/
def NotRedirecting (m : Machine) : Prop := ∀ d ∈ m.driver, d.redirectEnable = false

instance (m : Machine) : Decidable (NoDeadPort m) :=
  inferInstanceAs (Decidable (∀ d ∈ m.driver, d.redirectEnable = true →
    ∃ a ∈ m.app, a.proxy.running = true ∧ a.proxy.port = d.redirectPort))

instance (m : Machine) : Decidable (NotRedirecting m) :=
  inferInstanceAs (Decidable (∀ d ∈ m.driver, d.redirectEnable = false))

/-- The redirect is only ticked, on a connected driver, while the proxy listens on the port shown,
and the proxy is only stopped, or the application left, while the driver does not redirect. -/
def Careful (m : Machine) : Event → Prop
  | .frame (some .wfpRedirect) => ∀ a ∈ m.app, a.wfpRedirect = false → a.client = .live →
      m.driver.isSome → a.proxy.running = true ∧ a.proxy.port = a.portShown
  | .frame (some (.startStop _ _)) => ∀ a ∈ m.app, a.proxy.running = true → NotRedirecting m
  | .exit => NotRedirecting m
  | _ => True

instance (m : Machine) : ∀ e, Decidable (Careful m e)
  | .frame (some .wfpRedirect) => inferInstanceAs (Decidable (∀ a ∈ m.app, a.wfpRedirect = false →
      a.client = .live → m.driver.isSome → a.proxy.running = true ∧ a.proxy.port = a.portShown))
  | .frame (some (.startStop _ _)) =>
    inferInstanceAs (Decidable (∀ a ∈ m.app, a.proxy.running = true → NotRedirecting m))
  | .exit => inferInstanceAs (Decidable (NotRedirecting m))
  | .loadDriver _ | .loseDriver | .launch _ _ _ _ _ _ | .connect _ | .frame none
  | .frame (some (.proxyPort _)) | .frame (some .useSystemProxy) => isTrue trivial

/-! ### What a frame does -/

theorem noDeadPort_of_notRedirecting {m : Machine} (h : NotRedirecting m) : NoDeadPort m := by
  intro d hd hon
  rw [h d hd] at hon
  contradiction

/-- Without a running proxy, no dead port means no redirection. -/
theorem noDeadPort_iff_of_stopped {m : Machine} (h : ∀ a ∈ m.app, a.proxy.running = false) :
    NoDeadPort m ↔ NotRedirecting m := by
  refine ⟨fun hgood d hd => ?_, noDeadPort_of_notRedirecting⟩
  by_contra hon
  obtain ⟨a, ha, hrun, -⟩ := hgood d hd (by simpa using hon)
  rw [h a ha] at hrun
  contradiction

/-- Only the proxy and the driver's context matter. -/
theorem NoDeadPort.congr {m t : Machine} (h : NoDeadPort m) (hdriver : t.driver = m.driver)
    (happ : ∀ a ∈ m.app, ∃ b ∈ t.app, b.proxy = a.proxy) : NoDeadPort t := by
  intro d hd hon
  rw [hdriver] at hd
  obtain ⟨a, ha, hrun, hport⟩ := h d hd hon
  obtain ⟨b, hb, hproxy⟩ := happ a ha
  exact ⟨b, hb, by rw [hproxy]; exact hrun, by rw [hproxy]; exact hport⟩

theorem startMitm_driver (m : Machine) (a : App) (bind opened : Bool) :
    (startMitm m a bind opened).driver = m.driver := by
  unfold startMitm
  split <;> rfl

/-- The application as the frame leaves it for its buttons. -/
def App.refreshed (a : App) : App :=
  { a with mitmRunning := a.proxy.running, proxyPort := clampPort a.proxyPort }

theorem drawMitm_startStop (m : Machine) (a : App) (bind opened : Bool) :
    drawMitm m a (some (.startStop bind opened)) =
      if a.proxy.running then stopMitm m a.refreshed opened
      else startMitm m a.refreshed bind opened := by
  cases h : a.proxy.running <;> simp [drawMitm, App.refreshed, h]

theorem drawMitm_wfpRedirect (m : Machine) (a : App) :
    drawMitm m a (some .wfpRedirect) = toggleRedirect m a.refreshed := rfl

/-- The other widgets leave the proxy and the driver as they are. -/
theorem drawMitm_congr {m : Machine} {a : App} (ha : m.app = some a) {click : Option Click}
    (hstart : ∀ bind opened, click ≠ some (.startStop bind opened))
    (hredirect : click ≠ some .wfpRedirect) (hgood : NoDeadPort m) :
    NoDeadPort (drawMitm m a click) := by
  refine hgood.congr ?_ fun b hb => ?_
  · match click with
    | none | some (.proxyPort _) | some .useSystemProxy => rfl
    | some (.startStop bind opened) => exact absurd rfl (hstart bind opened)
    | some .wfpRedirect => exact absurd rfl hredirect
  · obtain rfl : a = b := Option.some.inj (ha.symm.trans hb)
    match click with
    | none | some .useSystemProxy => exact ⟨_, rfl, rfl⟩
    | some (.proxyPort v) =>
      refine ⟨_, rfl, ?_⟩
      simp only
      split <;> rfl
    | some (.startStop bind opened) => exact absurd rfl (hstart bind opened)
    | some .wfpRedirect => exact absurd rfl hredirect

/-- Starting the proxy redirects nothing, and stopping it is safe when nothing is redirected. -/
theorem startStop_step {m : Machine} {a : App} (ha : m.app = some a) (bind opened : Bool)
    (hgood : NoDeadPort m) :
    NoDeadPort (drawMitm m a (some (.startStop bind opened))) ↔
      (a.proxy.running = true → NotRedirecting m) := by
  rw [drawMitm_startStop]
  cases hrun : a.proxy.running with
  | true =>
    have hstopped : ∀ b ∈ (stopMitm m a.refreshed opened).app, b.proxy.running = false := by
      rintro b hb
      obtain rfl := Option.some.inj hb
      rfl
    rw [if_pos rfl, noDeadPort_iff_of_stopped hstopped]
    exact ⟨fun h _ => h, fun h => h rfl⟩
  | false =>
    rw [if_neg (by decide)]
    refine iff_of_true ?_ fun h => absurd h (by decide)
    have hoff : NotRedirecting m := by
      apply (noDeadPort_iff_of_stopped fun b hb => ?_).mp hgood
      obtain rfl : a = b := Option.some.inj (ha.symm.trans hb)
      exact hrun
    apply noDeadPort_of_notRedirecting
    intro d hd
    rw [startMitm_driver] at hd
    exact hoff d hd

/-- Unticking is safe, and so is a tick that the driver does not receive. -/
theorem toggleRedirect_step {m : Machine} {a : App} (ha : m.app = some a) (hgood : NoDeadPort m) :
    NoDeadPort (toggleRedirect m a.refreshed) ↔
      (a.wfpRedirect = false → a.client = .live → m.driver.isSome →
        a.proxy.running = true ∧ a.proxy.port = a.portShown) := by
  by_cases hsent : a.client = .live ∧ m.driver.isSome
  · obtain ⟨hlive, hsome⟩ := hsent
    obtain ⟨d, hd⟩ := Option.isSome_iff_exists.mp hsome
    have ht : (toggleRedirect m a.refreshed).driver =
        some { d with redirectEnable := !a.wfpRedirect, redirectPort := a.portShown } := by
      simp only [toggleRedirect, App.refreshed, Handle.setRedirect, hlive, hd, kndSetRedirect]
      cases a.wfpRedirect <;> rfl
    constructor
    · intro h hoff _ _
      obtain ⟨b, hb, hserved⟩ := h _ ht (by rw [hoff]; rfl)
      obtain rfl := Option.some.inj hb
      exact hserved
    · intro h d' hd' hon
      obtain rfl := Option.some.inj (ht.symm.trans hd')
      exact ⟨_, rfl, h (by simpa using hon) hlive hsome⟩
  · have ht : (toggleRedirect m a.refreshed).driver = m.driver := by
      simp only [toggleRedirect, App.refreshed, Handle.setRedirect]
      split
      · next hlive hd => exact absurd ⟨hlive, by rw [hd]; rfl⟩ hsent
      · rfl
    refine iff_of_true (hgood.congr ht fun b hb => ?_) fun _ hlive hsome =>
      absurd ⟨hlive, hsome⟩ hsent
    obtain rfl : a = b := Option.some.inj (ha.symm.trans hb)
    exact ⟨_, rfl, rfl⟩

/-! ### Runs -/

/-- A step reaches a dead port exactly when it is not a careful one. -/
theorem step_noDeadPort (m : Machine) (e : Event) (t : Machine) (hgood : NoDeadPort m)
    (hstep : step m e = some t) : NoDeadPort t ↔ Careful m e := by
  cases e with
  | loadDriver created =>
    simp only [step] at hstep
    split at hstep
    · contradiction
    · obtain rfl := Option.some.inj hstep
      refine iff_of_true (noDeadPort_of_notRedirecting fun d hd => ?_) trivial
      obtain rfl := Option.some.inj hd
      rfl
  | loseDriver =>
    obtain rfl := Option.some.inj hstep
    exact iff_of_true (fun d hd => absurd hd (Option.not_mem_none d)) trivial
  | launch port useSystemProxy caReady mitmFromCmd bind access =>
    simp only [step] at hstep
    split at hstep
    · contradiction
    · next hnone =>
      obtain rfl := Option.some.inj hstep
      refine iff_of_true (noDeadPort_of_notRedirecting ?_) trivial
      apply (noDeadPort_iff_of_stopped fun a ha => ?_).mp hgood
      rw [hnone] at ha
      contradiction
  | connect access =>
    obtain ⟨a, ha, rfl⟩ := Option.map_eq_some_iff.mp hstep
    refine iff_of_true (hgood.congr rfl fun b hb => ?_) trivial
    obtain rfl : a = b := Option.some.inj (ha.symm.trans hb)
    exact ⟨_, rfl, rfl⟩
  | frame click =>
    obtain ⟨a, ha, rfl⟩ := Option.map_eq_some_iff.mp hstep
    match click with
    | some (.startStop bind opened) =>
      simpa [Careful, ha] using startStop_step ha bind opened hgood
    | some .wfpRedirect =>
      simpa [Careful, ha, drawMitm_wfpRedirect] using toggleRedirect_step ha hgood
    | none | some (.proxyPort _) | some .useSystemProxy =>
      exact iff_of_true (drawMitm_congr ha nofun nofun hgood) trivial
  | exit =>
    obtain ⟨a, ha, rfl⟩ := Option.map_eq_some_iff.mp hstep
    exact noDeadPort_iff_of_stopped fun b hb => absurd hb (Option.not_mem_none b)

/-- A run redirects no connect to a dead port exactly when all its steps are careful. -/
theorem noDeadPort_iff {settings : InternetSettings} {es : List Event} {t : Machine}
    (hrun : runEvents step (boot settings) es = some t) :
    (∀ pre m, pre <+: es → runEvents step (boot settings) pre = some m → NoDeadPort m) ↔
      EachStep step Careful (boot settings) es :=
  runEvents_invariant_iff step_noDeadPort (fun d hd => absurd hd (Option.not_mem_none d)) hrun

/-- The user starts the proxy, ticks the redirect, and unticks it before stopping and leaving. -/
def tidyRun : List Event :=
  [.loadDriver true, .launch 8888 false true false false true, .frame (some (.startStop true true)),
    .frame (some .wfpRedirect), .frame (some .wfpRedirect), .frame (some (.startStop true true)),
    .exit]

theorem noDeadPort_tidyRun :
    NoDeadPort ((runEvents step (boot ⟨false, ""⟩) tidyRun).getD (boot ⟨false, ""⟩)) := by
  have hrun : runEvents step (boot ⟨false, ""⟩) tidyRun =
      some ((runEvents step (boot ⟨false, ""⟩) tidyRun).getD (boot ⟨false, ""⟩)) := by
    decide +kernel
  exact (noDeadPort_iff hrun).mpr (by decide +kernel) tidyRun _ (List.prefix_refl _) hrun

/-- Stopping the proxy leaves the redirect on: every connect to a web server now fails. -/
theorem stopMitm_deadPort : ¬ ∀ settings es t,
    runEvents step (boot settings) es = some t → NoDeadPort t := by
  intro h
  have hdead : ¬ ∀ t ∈ runEvents step (boot ⟨false, ""⟩)
      (tidyRun.take 4 ++ [.frame (some (.startStop true true))]), NoDeadPort t := by
    decide +kernel
  exact hdead fun t ht => h _ _ t ht

end NetDebugger.Redirect
