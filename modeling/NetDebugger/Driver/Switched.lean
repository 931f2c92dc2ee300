import NetDebugger.Driver.Refined

/-! What a run of requests leaves in the ring: the bytes that its physical writes spare, and the capture
flag, which agrees with the driver's own. -/

namespace NetDebugger.Driver

open Lib

variable {Process : Type} [DecidableEq Process]

/-! ### What a request writes -/

/-- The extent of the ring that a request writes, if it is not turned down. -/
def Ask.extent (a : Ask Process) : Option (Nat × Nat) :=
  match Ioctl.ofCode a.code with
  | some .startCapture | some .stopCapture =>
    some (fieldCaptureActive.off, fieldCaptureActive.width)
  | some .physWrite => some (a.request.offset.toNat, a.request.length.toNat)
  | _ => none

/-- A request that writes nothing in an extent. -/
def Ask.Spares (off n : Nat) (a : Ask Process) : Prop := ∀ e ∈ a.extent, Apart e.1 e.2 off n

instance (off n : Nat) (a : Ask Process) : Decidable (a.Spares off n) :=
  inferInstanceAs (Decidable (∀ e ∈ a.extent, Apart e.1 e.2 off n))

/-- The flag behind a request. -/
def Ask.switch (a : Ask Process) (active : UInt32) : UInt32 :=
  match Ioctl.ofCode a.code with
  | some .startCapture => 1
  | some .stopCapture => 0
  | _ => active

/-- What a request can do to the panel: it changes the lease or the redirection, or nothing; it
switches the capture; or it writes to the ring. -/
inductive Panel.Serves (y : Panel Process) (a : Ask Process) : Panel Process → Prop
  | kept (z : Panel Process) (hregion : z.region = y.region)
      (hactive : z.captureActive = y.captureActive)
      (hswitch : a.switch y.captureActive = y.captureActive) : y.Serves a z
  | switched (active : UInt32)
      (hextent : a.extent = some (fieldCaptureActive.off, fieldCaptureActive.width))
      (hswitch : a.switch y.captureActive = active) : y.Serves a (y.setCapture active)
  | wrote (bs : List UInt8) (hcode : Ioctl.ofCode a.code = some .physWrite)
      (hlen : bs.length = a.request.length.toNat)
      (hfits : a.request.offset.toNat + bs.length ≤ y.region.length) :
      y.Serves a { y with region := patch y.region a.request.offset.toNat bs }

omit [DecidableEq Process] in
theorem Panel.Serves.same {y : Panel Process} {a : Ask Process}
    (h : a.switch y.captureActive = y.captureActive) : y.Serves a y :=
  .kept y rfl rfl h

omit [DecidableEq Process] in
theorem read_same (y : Panel Process) (req : KndPhysRw) (outLen : Nat) :
    (y.read req outLen).1 = y := by
  unfold Panel.read
  split
  · rfl
  split
  · rfl
  split <;> rfl

omit [DecidableEq Process] in
theorem answered_same (y : Panel Process) (outLen : Nat) (bs : List UInt8) :
    (answered y outLen bs).1 = y := by
  unfold answered
  split <;> rfl

theorem map_keeps (y : Panel Process) (current : Process) (answer : MmAnswer) :
    (y.map current answer).1.region = y.region ∧
      (y.map current answer).1.captureActive = y.captureActive := by
  unfold Panel.map
  split
  · exact ⟨rfl, rfl⟩
  · split <;> exact ⟨rfl, rfl⟩
  · split <;> exact ⟨rfl, rfl⟩

theorem serve_serves (y : Panel Process) (a : Ask Process) : y.Serves a (y.serve a).1 := by
  obtain hcode | ⟨i, hcode⟩ := Option.eq_none_or_eq_some (Ioctl.ofCode a.code)
  · unfold Panel.serve
    rw [hcode]
    exact .same (by rw [Ask.switch, hcode])
  unfold Panel.serve
  rw [hcode]
  cases i with
  | getVersion | getStats =>
    dsimp only
    rw [answered_same]
    exact .same (by rw [Ask.switch, hcode])
  | mapRing =>
    dsimp only
    split
    · exact .same (by rw [Ask.switch, hcode])
    · obtain ⟨hregion, hactive⟩ := map_keeps y a.current a.map
      exact .kept _ hregion hactive (by rw [Ask.switch, hcode])
  | unmapRing => exact .kept _ rfl rfl (by rw [Ask.switch, hcode])
  | startCapture => exact .switched 1 (by rw [Ask.extent, hcode]) (by rw [Ask.switch, hcode])
  | stopCapture => exact .switched 0 (by rw [Ask.extent, hcode]) (by rw [Ask.switch, hcode])
  | setRedirect =>
    dsimp only
    split
    · exact .same (by rw [Ask.switch, hcode])
    · exact .kept _ rfl rfl (by rw [Ask.switch, hcode])
  | physRead =>
    dsimp only
    split
    · exact .same (by rw [Ask.switch, hcode])
    · rw [read_same]
      exact .same (by rw [Ask.switch, hcode])
  | physWrite =>
    dsimp only
    split
    · exact .same (by rw [Ask.switch, hcode])
    unfold Panel.write
    split
    · exact .same (by rw [Ask.switch, hcode])
    split
    · exact .same (by rw [Ask.switch, hcode])
    split
    · exact .same (by rw [Ask.switch, hcode])
    · have hdata : a.request.length.toNat ≤ (a.input.drop sizeofKndPhysRw).length := by omega
      have hlen := List.length_take_of_le hdata
      exact .wrote _ hcode hlen (by omega)

section

variable {y z : Panel Process} {a : Ask Process}

omit [DecidableEq Process] in
theorem flag_fits (h : sizeofKndRingHeader ≤ y.region.length) (active : UInt32) :
    fieldCaptureActive.off + (leBytes 4 active.toNat).length ≤ y.region.length := by
  have hfits : fieldCaptureActive.off + 4 ≤ sizeofKndRingHeader := by decide
  rw [leBytes_length]
  omega

omit [DecidableEq Process] in
theorem Panel.Serves.length (h : y.Serves a z) (hy : sizeofKndRingHeader ≤ y.region.length) :
    z.region.length = y.region.length := by
  cases h with
  | kept _ hregion => exact congrArg List.length hregion
  | switched active => exact patch_length (flag_fits hy active)
  | wrote bs _ _ hfits => exact patch_length hfits

omit [DecidableEq Process] in
theorem Panel.Serves.spares (h : y.Serves a z) (hy : sizeofKndRingHeader ≤ y.region.length)
    {off n : Nat} (ha : a.Spares off n) : part z.region off n = part y.region off n := by
  cases h with
  | kept _ hregion => rw [hregion]
  | switched active hextent =>
    have hapart : Apart fieldCaptureActive.off fieldCaptureActive.width off n :=
      ha (fieldCaptureActive.off, fieldCaptureActive.width) hextent
    have hlen : (leBytes 4 active.toNat).length = fieldCaptureActive.width := leBytes_length ..
    exact part_patch_apart (flag_fits hy active) (hlen ▸ hapart)
  | wrote bs hcode hlen hfits =>
    have hextent : a.extent = some (a.request.offset.toNat, a.request.length.toNat) := by
      rw [Ask.extent, hcode]
    have hapart : Apart a.request.offset.toNat a.request.length.toNat off n :=
      ha (a.request.offset.toNat, a.request.length.toNat) hextent
    exact part_patch_apart hfits (hlen ▸ hapart)

omit [DecidableEq Process] in
theorem Panel.Serves.captureActive (h : y.Serves a z) :
    z.captureActive = a.switch y.captureActive := by
  cases h with
  | kept _ _ hactive hswitch => exact hactive.trans hswitch.symm
  | switched _ _ hswitch => exact hswitch.symm
  | wrote _ hcode => rw [Ask.switch, hcode]

end

/-- What no request of a run writes is left as it was. -/
theorem run_spares {y : Panel Process} (h : sizeofKndRingHeader ≤ y.region.length)
    {asks : List (Ask Process)} {off n : Nat} (hspares : ∀ a ∈ asks, a.Spares off n) :
    (y.run asks).1.region.length = y.region.length ∧
      part (y.run asks).1.region off n = part y.region off n := by
  induction asks generalizing y with
  | nil => exact ⟨rfl, rfl⟩
  | cons a asks ih =>
    have hserves := serve_serves y a
    have hlength := hserves.length h
    obtain ⟨hlength', hpart⟩ := @ih (y.serve a).1 (hlength ▸ h)
      fun b hb => hspares b (List.mem_cons_of_mem _ hb)
    exact ⟨hlength'.trans hlength,
      hpart.trans (hserves.spares h (hspares a (List.mem_cons_self ..)))⟩

/-! ### The capture flag -/

/-- The last START or STOP of a list of requests. -/
def switched (active : UInt32) (asks : List (Ask Process)) : UInt32 :=
  asks.foldl (fun active a => a.switch active) active

/-- A request that is no physical write over the capture flag. -/
def Ask.Honest (a : Ask Process) : Prop :=
  Ioctl.ofCode a.code = some .physWrite → a.Spares fieldCaptureActive.off fieldCaptureActive.width

/-- The header says what the driver's own flag says. -/
def Panel.Flagged (y : Panel Process) : Prop :=
  fieldCaptureActive.of y.region = leBytes 4 y.captureActive.toNat

instance (a : Ask Process) : Decidable a.Honest :=
  inferInstanceAs (Decidable (Ioctl.ofCode a.code = some .physWrite → a.Spares _ _))

omit [DecidableEq Process] in
theorem Panel.Serves.flagged {y z : Panel Process} {a : Ask Process} (h : y.Serves a z)
    (hy : sizeofKndRingHeader ≤ y.region.length) (hflag : y.Flagged) (ha : a.Honest) :
    z.Flagged := by
  cases h with
  | kept _ hregion hactive =>
    unfold Panel.Flagged
    rw [hregion, hactive]
    exact hflag
  | switched active =>
    have hsame := @part_patch_same _ y.region (leBytes 4 active.toNat) fieldCaptureActive.off
      (Nat.le_trans (Nat.le_add_right ..) (flag_fits hy active))
    rwa [leBytes_length] at hsame
  | wrote bs hcode hlen hfits =>
    have hspares := (Panel.Serves.wrote bs hcode hlen hfits).spares hy (ha hcode)
    exact hspares.trans hflag

theorem run_flagged {y : Panel Process} (h : sizeofKndRingHeader ≤ y.region.length)
    (hflag : y.Flagged) {asks : List (Ask Process)} (hhonest : ∀ a ∈ asks, a.Honest) :
    (y.run asks).1.captureActive = switched y.captureActive asks ∧ (y.run asks).1.Flagged := by
  induction asks generalizing y with
  | nil => exact ⟨rfl, hflag⟩
  | cons a asks ih =>
    have hserves := serve_serves y a
    have hrest := @ih (y.serve a).1 (hserves.length h ▸ h)
      (hserves.flagged h hflag (hhonest a (List.mem_cons_self ..)))
      fun b hb => hhonest b (List.mem_cons_of_mem _ hb)
    rw [hserves.captureActive] at hrest
    exact hrest

omit [DecidableEq Process] in
theorem Kernel.flagged_iff {mm : Machine} {k : Kernel Process} (hk : k.Ready mm) :
    (k.panel mm).Flagged ↔ k.field mm fieldCaptureActive = k.captureActive.toNat := by
  have hfits : fieldCaptureActive.off + fieldCaptureActive.width ≤ sizeofKndRingHeader := by decide
  have hbytes := @Kernel.field_bytes _ mm k fieldCaptureActive (Nat.le_trans hfits hk.header)
  have hlt : k.field mm fieldCaptureActive < 256 ^ 4 := readNat_lt ..
  unfold Panel.Flagged
  rw [← hbytes]
  constructor
  · intro h
    have hnat : leNat (leBytes 4 (k.field mm fieldCaptureActive)) =
      leNat (leBytes 4 k.captureActive.toNat) := congrArg leNat h
    have hlt' : k.captureActive.toNat < 256 ^ 4 := k.captureActive.toNat_lt
    rwa [leNat_leBytes, leNat_leBytes, Nat.mod_eq_of_lt hlt, Nat.mod_eq_of_lt hlt'] at hnat
  · intro h
    rw [h]
    rfl

/-- The header's capture flag is the driver's own, and the last START or STOP, after every run in
which no physical write names it. -/
theorem captureActive_switched {mm : Machine} {k : Kernel Process} (hk : k.Ready mm)
    (hagree : k.field mm fieldCaptureActive = k.captureActive.toNat)
    {calls : List (ControlCall Process)} (hhonest : ∀ c ∈ calls, c.ask.Honest) :
    ∃ k' rs, k.run mm calls = some (k', rs) ∧
      k'.captureActive = switched k.captureActive (calls.map ControlCall.ask) ∧
      k'.field mm fieldCaptureActive = k'.captureActive.toNat := by
  obtain ⟨k', rs, hrun, hcache, hpanel⟩ := control_refines hk calls
  have hregion : sizeofKndRingHeader ≤ (k.panel mm).region.length := by
    rw [Kernel.panel, region_length]
    exact hk.header
  obtain ⟨hactive, hflag⟩ := run_flagged hregion ((Kernel.flagged_iff hk).mpr hagree)
    (List.forall_mem_map.mpr hhonest)
  rw [← hpanel] at hactive hflag
  exact ⟨k', rs, hrun, hactive, (Kernel.flagged_iff (hk.congr hcache)).mp hflag⟩

theorem captureActive_switched_startedStats : ∃ k' rs,
    someKernel.run someMachine startedStats = some (k', rs) ∧
      k'.captureActive = switched 0 (startedStats.map ControlCall.ask) ∧
      k'.field someMachine fieldCaptureActive = k'.captureActive.toNat :=
  captureActive_switched someKernel_ready (by decide +kernel) (by decide +kernel)

end NetDebugger.Driver
