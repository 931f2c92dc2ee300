import NetDebugger.Driver.Mapping

/-! `KndClient` and its pointer into the ring.  Any number of processes run a client, each with one
handle, and others talk to the device as they please.  A client polls through `ring_`; the driver
unmaps the ring behind requests of its own.  No client is left with a pointer to pages that are gone,
and no two of them consume the ring at once. -/

namespace NetDebugger.Driver

open Lib

/-! ### The client -/

/-- `KndClient`: whether `h_` is a handle, and the mapping as `mapRing` has stored it. `ring` is
`ring_`, and `data_` lies `dataOffset` behind it. -/
structure KndClient where
  isOpen : Bool
  ring : Option UInt64
  dataOffset : UInt32
  dataSize : UInt32
  mappedSize : UInt64
deriving DecidableEq

def KndClient.closed : KndClient := ⟨false, none, 0, 0, 0⟩

/-- What a client finds at the beginning of its mapping. -/
structure HeaderSeen where
  magic : UInt32
  version : UInt32

def HeaderSeen.ok (x : HeaderSeen) : Bool :=
  x.magic.toNat = kndRingMagic && x.version.toNat = kndProtocolVersion

/-- The end of `KndClient::mapRing`, on a successful request. -/
def KndClient.accept (c : KndClient) (out : KndMapRingOut) (header : HeaderSeen) : KndClient :=
  if out.userVa = 0 ∨ !header.ok then { c with ring := none }
  else
    { c with
      ring := some out.userVa
      dataOffset := out.dataOffset
      dataSize := out.dataSize
      mappedSize := out.totalSize }

variable {Process : Type} [DecidableEq Process]

/-- The device, and the client of each process that runs one. -/
structure Machines (Process : Type) where
  device : Device Process
  client : Process → KndClient

/-- The handle of a client. -/
def handle (p : Process) : FileObject Process := ⟨p, 0⟩

def Machines.set (s : Machines Process) (p : Process) (c : KndClient) : Machines Process :=
  { s with client := Function.update s.client p c }

inductive ClientEvent (Process : Type)
  /-- `KndClient::open`: whether Windows opens the device is its own answer. -/
  | opens (p : Process) (granted : Bool)
  /-- `KndClient::mapRing`. -/
  | maps (p : Process) (mm : MmAnswer) (header : HeaderSeen)
  /-- `KndClient::close`, also from the destructor. -/
  | closes (p : Process)
  /-- The process ends, and Windows closes its handle. -/
  | dies (p : Process)
  /-- A request of a process that runs no client. -/
  | foreign (r : Request Process)

def Request.file : Request Process → FileObject Process
  | .create f | .mapRing f _ _ | .unmapRing f | .cleanup f => f

def Machines.step (runsClient : Process → Bool) (s : Machines Process) :
    ClientEvent Process → Option (Machines Process)
  | .opens p granted =>
    if !runsClient p then none
    else if (s.client p).isOpen || !granted then some s
    else do
      let device ← s.device.step (.create (handle p))
      some (({ s with device }).set p { s.client p with isOpen := true })
  | .maps p mm header =>
    if !runsClient p then none
    else if !(s.client p).isOpen then some s
    else
      match s.device.mapRing (handle p) sizeofKndMapRingOut mm with
      | (device, .ok out) => some (({ s with device }).set p ((s.client p).accept out header))
      | (device, .error _) => some { s with device }
  | .closes p =>
    if !runsClient p then none
    else if !(s.client p).isOpen then some (s.set p .closed)
    else do
      let device ←
        if (s.client p).ring.isSome then s.device.step (.unmapRing (handle p)) else some s.device
      let device ← device.step (.cleanup (handle p))
      some (({ s with device }).set p .closed)
  | .dies p =>
    if !runsClient p then none
    else if !(s.client p).isOpen then some (s.set p .closed)
    else do
      let device ← s.device.step (.cleanup (handle p))
      some (({ s with device }).set p .closed)
  | .foreign r =>
    if runsClient r.file.process then none
    else (s.device.step r).map fun device => { s with device }

def Machines.loaded (totalSize : UInt64) (dataSize : UInt32) : Machines Process where
  device := .loaded totalSize dataSize
  client := fun _ => .closed

/-! ### What one process does to another -/

section

variable {y z : Device Process}

/-- From `y` to `z` the process `p` has lost nothing, nor opened anything. -/
structure Device.Keeps (y z : Device Process) (p : Process) : Prop where
  opened : ∀ f, f.process = p → (f ∈ z.opened ↔ f ∈ y.opened)
  mappings : ∀ va, (p, va) ∈ y.mappings → (p, va) ∈ z.mappings

/-- The ring is as large as it was. -/
structure Device.SameRing (y z : Device Process) : Prop where
  totalSize : z.ctx.ringTotalSize = y.ctx.ringTotalSize
  dataSize : z.ctx.ringDataSize = y.ctx.ringDataSize

omit [DecidableEq Process] in
theorem Device.Keeps.refl (y : Device Process) (p : Process) : y.Keeps y p :=
  ⟨fun _ _ => Iff.rfl, fun _ hx => hx⟩

omit [DecidableEq Process] in
theorem Device.Keeps.trans {w : Device Process} {p : Process} (h : w.Keeps y p)
    (h' : y.Keeps z p) : w.Keeps z p :=
  ⟨fun f hf => (h'.opened f hf).trans (h.opened f hf), fun va hx => h'.mappings va (h.mappings va hx)⟩

omit [DecidableEq Process] in
theorem Device.SameRing.trans {w : Device Process} (h : w.SameRing y) (h' : y.SameRing z) :
    w.SameRing z := ⟨h'.totalSize.trans h.totalSize, h'.dataSize.trans h.dataSize⟩

theorem Device.unmapRing_sameRing (y : Device Process) (f : FileObject Process) :
    y.SameRing (y.unmapRing f) := by
  constructor <;> simp only [Device.unmapRing, kndUnmapRingFromUser] <;> split <;> rfl

theorem Device.unmapRing_keeps (hwf : y.Wf) {f : FileObject Process} {p : Process}
    (hne : p ≠ f.process) : y.Keeps (y.unmapRing f) p where
  opened := fun _ _ => Iff.rfl
  mappings := by
    intro va hx
    obtain hfree | ⟨q, va', hmapped⟩ := hwf.agree
    · rw [hfree.mappings] at hx
      contradiction
    · rw [hmapped.mappings, List.mem_singleton] at hx
      have hpq : p = q := congrArg Prod.fst hx
      rw [(hmapped.unmapRing_other (hpq ▸ hne.symm)).2, hmapped.mappings, hx]
      exact List.mem_singleton_self _

theorem Device.mapRing_keeps (hwf : y.Wf) (f : FileObject Process) (outLen : Nat) (mm : MmAnswer) :
    y.SameRing (y.mapRing f outLen mm).1 ∧ ∀ p, y.Keeps (y.mapRing f outLen mm).1 p := by
  obtain heq | ⟨va, -, -, heq⟩ | ⟨va, -, -, heq⟩ := y.mapRing_cases hwf.ringMdl f outLen mm <;>
    rw [heq]
  · exact ⟨⟨rfl, rfl⟩, Device.Keeps.refl y⟩
  · exact ⟨⟨rfl, rfl⟩, fun p => ⟨fun _ _ => Iff.rfl, fun _ hx => hx⟩⟩
  · exact ⟨⟨rfl, rfl⟩, fun p => ⟨fun _ _ => Iff.rfl, fun _ hx => List.mem_cons_of_mem _ hx⟩⟩

/-- A request takes nothing from another process. -/
theorem Device.step_keeps {r : Request Process} (hwf : y.Wf) (hstep : y.step r = some z) :
    y.SameRing z ∧ ∀ p, p ≠ r.file.process → y.Keeps z p := by
  cases r with
  | create f =>
    simp only [Device.step] at hstep
    split at hstep
    · contradiction
    obtain rfl := Option.some.inj hstep
    refine ⟨⟨rfl, rfl⟩, fun p hne => ⟨fun g hg => ?_, fun _ hx => hx⟩⟩
    rw [List.mem_cons, or_iff_right]
    rintro rfl
    exact hne hg.symm
  | mapRing f outLen mm =>
    simp only [Device.step] at hstep
    split at hstep
    · obtain ⟨hring, hkeeps⟩ := Device.mapRing_keeps hwf f outLen mm
      exact Option.some.inj hstep ▸ ⟨hring, fun p _ => hkeeps p⟩
    · contradiction
  | unmapRing f =>
    simp only [Device.step] at hstep
    split at hstep
    · exact Option.some.inj hstep ▸
        ⟨y.unmapRing_sameRing f, fun p hne => Device.unmapRing_keeps hwf hne⟩
    · contradiction
  | cleanup f =>
    simp only [Device.step] at hstep
    split at hstep
    · obtain rfl := Option.some.inj hstep
      refine ⟨⟨(y.unmapRing_sameRing f).totalSize, (y.unmapRing_sameRing f).dataSize⟩,
        fun p hne => ⟨fun g hg => ?_, (Device.unmapRing_keeps hwf hne).mappings⟩⟩
      refine List.mem_filter.trans (and_iff_left (decide_eq_true ?_))
      rintro rfl
      exact hne hg.symm
    · contradiction

/-- The answer to a request to map the ring is a mapping of it. -/
theorem Device.mapRing_ok (hwf : y.Wf) {f : FileObject Process} {outLen : Nat} {mm : MmAnswer}
    {out : KndMapRingOut} (h : (y.mapRing f outLen mm).2 = .ok out) :
    (f.process, out.userVa) ∈ (y.mapRing f outLen mm).1.mappings ∧
      out.totalSize = y.ctx.ringTotalSize ∧ out.dataOffset = UInt32.ofNat kndRingDataOffset ∧
      out.dataSize = y.ctx.ringDataSize := by
  unfold Device.mapRing at h ⊢
  split
  · next hlen =>
    rw [if_pos hlen] at h
    cases h
  next hlen =>
  rw [if_neg hlen] at h
  simp only [kndMapRingToUser, hwf.ringMdl, Bool.not_true, Bool.false_eq_true, if_false] at h ⊢
  obtain hfree | ⟨p, va, hmapped⟩ := hwf.agree
  · rw [hfree.userVa] at h ⊢
    cases mm with
    | address va =>
      by_cases h0 : va = 0
      · simp only [h0, if_true] at h
        cases h
      · simp only [h0, if_false] at h ⊢
        obtain rfl := Except.ok.inj h
        exact ⟨List.mem_cons_self .., rfl, rfl, rfl⟩
    | raised code => cases h
  · rw [hmapped.userVa] at h ⊢
    by_cases hp : y.ctx.mapProcess = some f.process
    · simp only [hp, if_true] at h ⊢
      obtain rfl := Except.ok.inj h
      obtain rfl := Option.some.inj (hmapped.mapProcess.symm.trans hp)
      exact ⟨hmapped.mappings ▸ List.mem_singleton_self _, rfl, rfl, rfl⟩
    · simp only [hp, if_false] at h
      cases h

/-- A file object that is closed leaves its process with nothing mapped. -/
theorem Device.cleanup_unmaps (hwf : y.Wf) {f : FileObject Process}
    (hstep : y.step (.cleanup f) = some z) : ∀ va, (f.process, va) ∉ z.mappings := by
  intro va hx
  simp only [Device.step] at hstep
  split at hstep
  · obtain rfl := Option.some.inj hstep
    obtain hfree | ⟨q, va', hmapped⟩ := hwf.agree
    · exact absurd ((hfree.unmapRing f).mappings ▸ hx) List.not_mem_nil
    · by_cases hq : f.process = q
      · exact absurd ((hmapped.unmapRing_same hq).mappings ▸ hx) List.not_mem_nil
      · rw [(hmapped.unmapRing_other hq).2, hmapped.mappings, List.mem_singleton] at hx
        exact hq (congrArg Prod.fst hx)
  · contradiction

end

/-! ### What a client's pointer is worth -/

/-- A client and the device: they agree on its handle, and behind `ring_` is a live mapping of its
own process, of the size that it has stored. -/
structure KndClient.Backed (c : KndClient) (p : Process) (y : Device Process) : Prop where
  opened : ∀ f, f.process = p → (f ∈ y.opened ↔ f = handle p ∧ c.isOpen = true)
  mapped : ∀ va, c.ring = some va → (p, va) ∈ y.mappings ∧
    c.dataOffset = UInt32.ofNat kndRingDataOffset ∧ c.dataSize = y.ctx.ringDataSize ∧
    c.mappedSize = y.ctx.ringTotalSize

omit [DecidableEq Process] in
theorem KndClient.Backed.keeps {c : KndClient} {p : Process} {y z : Device Process}
    (h : c.Backed p y) (hring : y.SameRing z) (hkeeps : y.Keeps z p) : c.Backed p z where
  opened := fun f hf => (hkeeps.opened f hf).trans (h.opened f hf)
  mapped := by
    intro va hva
    obtain ⟨hmem, hoff, hdata, htotal⟩ := h.mapped va hva
    exact ⟨hkeeps.mappings va hmem, hoff, hdata.trans hring.dataSize.symm,
      htotal.trans hring.totalSize.symm⟩

omit [DecidableEq Process] in
theorem KndClient.closed_backed {p : Process} {y : Device Process}
    (h : ∀ f, f.process = p → f ∉ y.opened) : KndClient.closed.Backed p y :=
  ⟨fun f hf => iff_of_false (h f hf) fun hopen => Bool.false_ne_true hopen.2, nofun⟩

omit [DecidableEq Process] in
theorem KndClient.accept_backed {c : KndClient} {p : Process} {y : Device Process}
    (h : c.Backed p y) {out : KndMapRingOut} (hmem : (p, out.userVa) ∈ y.mappings)
    (htotal : out.totalSize = y.ctx.ringTotalSize)
    (hoff : out.dataOffset = UInt32.ofNat kndRingDataOffset)
    (hdata : out.dataSize = y.ctx.ringDataSize) (header : HeaderSeen) :
    (c.accept out header).Backed p y := by
  unfold KndClient.accept
  split
  · exact ⟨h.opened, nofun⟩
  · refine ⟨h.opened, ?_⟩
    rintro va ⟨⟩
    exact ⟨hmem, hoff, hdata, htotal⟩

/-- A client whose handle is closed. -/
theorem KndClient.Backed.cleanup {c : KndClient} {p : Process} {y z : Device Process}
    (h : c.Backed p y) (hstep : y.step (.cleanup (handle p)) = some z) :
    KndClient.closed.Backed p z := by
  apply KndClient.closed_backed
  intro f hf hmem
  simp only [Device.step] at hstep
  split at hstep
  · obtain rfl := Option.some.inj hstep
    obtain ⟨hopened, hne⟩ := List.mem_filter.mp hmem
    exact of_decide_eq_true hne ((h.opened f hf).mp hopened).1
  · contradiction

/-- After a run from `start`. -/
structure Machines.Sound (runsClient : Process → Bool) (start s : Machines Process) : Prop where
  wf : s.device.Wf
  ring : start.device.SameRing s.device
  backed : ∀ p, runsClient p = true → (s.client p).Backed p s.device

variable {runsClient : Process → Bool} {start s t : Machines Process}

/-- The client of one process changes, and the others are as they were. -/
theorem Machines.Sound.set (h : start.Sound runsClient s) {p : Process} {c : KndClient}
    {device : Device Process} (hwf : device.Wf) (hring : s.device.SameRing device)
    (hkeeps : ∀ q, q ≠ p → s.device.Keeps device q) (hc : c.Backed p device) :
    start.Sound runsClient (({ s with device } : Machines Process).set p c) := by
  refine ⟨hwf, h.ring.trans hring, fun q hruns => ?_⟩
  show (Function.update s.client p c q).Backed q device
  by_cases hq : q = p
  · subst hq
    rw [Function.update_self]
    exact hc
  · rw [Function.update_of_ne hq]
    exact (h.backed q hruns).keeps hring (hkeeps q hq)

/-- A client that has no handle to close. -/
theorem Machines.Sound.forget (h : start.Sound runsClient s) {p : Process} (hruns : runsClient p = true)
    (hopen : (s.client p).isOpen = false) : start.Sound runsClient (s.set p .closed) := by
  apply h.set h.wf ⟨rfl, rfl⟩ fun q _ => Device.Keeps.refl s.device q
  apply KndClient.closed_backed
  intro f hf hmem
  exact Bool.false_ne_true (hopen.symm.trans (((h.backed p hruns).opened f hf).mp hmem).2)

/-- The handle of a client is closed, after `mid`. -/
theorem Machines.Sound.cleanup (h : start.Sound runsClient s) {p : Process} {mid device : Device Process}
    {c : KndClient} (hwf : mid.Wf) (hring : s.device.SameRing mid)
    (hkeeps : ∀ q, q ≠ p → s.device.Keeps mid q) (hc : c.Backed p mid)
    (hstep : mid.step (.cleanup (handle p)) = some device) :
    start.Sound runsClient (({ s with device } : Machines Process).set p .closed) := by
  obtain ⟨hring', hkeeps'⟩ := Device.step_keeps hwf hstep
  exact h.set (hwf.step hstep) (hring.trans hring')
    (fun q hq => (hkeeps q hq).trans (hkeeps' q hq)) (hc.cleanup hstep)

theorem Machines.Sound.step (h : start.Sound runsClient s) {e : ClientEvent Process}
    (hstep : s.step runsClient e = some t) : start.Sound runsClient t := by
  cases e with
  | opens p granted =>
    simp only [Machines.step] at hstep
    split at hstep
    · contradiction
    next hruns =>
    split at hstep
    · exact Option.some.inj hstep ▸ h
    obtain ⟨device, hcreate, hset⟩ := Option.bind_eq_some_iff.mp hstep
    obtain rfl := Option.some.inj hset
    obtain ⟨hring, hkeeps⟩ := Device.step_keeps h.wf hcreate
    apply h.set (h.wf.step hcreate) hring hkeeps
    have hbacked := h.backed p (by simpa using hruns)
    simp only [Device.step] at hcreate
    split at hcreate
    · contradiction
    obtain rfl := Option.some.inj hcreate
    refine ⟨fun f hf => ⟨fun hmem => ⟨?_, rfl⟩, fun heq => heq.1 ▸ List.mem_cons_self ..⟩,
      hbacked.mapped⟩
    rcases List.mem_cons.mp hmem with heq | hmem
    · exact heq
    · exact ((hbacked.opened f hf).mp hmem).1
  | maps p mm header =>
    simp only [Machines.step] at hstep
    split at hstep
    · contradiction
    next hruns =>
    split at hstep
    · exact Option.some.inj hstep ▸ h
    next hopen =>
    have hbacked := h.backed p (by simpa using hruns)
    have hmem : handle p ∈ s.device.opened :=
      (hbacked.opened (handle p) rfl).mpr ⟨rfl, by simpa using hopen⟩
    have hwf := h.wf.mapRing hmem sizeofKndMapRingOut mm
    obtain ⟨hring, hkeeps⟩ := Device.mapRing_keeps h.wf (handle p) sizeofKndMapRingOut mm
    have hok := @Device.mapRing_ok _ _ _ h.wf (handle p) sizeofKndMapRingOut mm
    generalize s.device.mapRing (handle p) sizeofKndMapRingOut mm = answer at *
    obtain ⟨device, result⟩ := answer
    cases result with
    | error status =>
      obtain rfl := Option.some.inj hstep
      exact ⟨hwf, h.ring.trans hring, fun q hq => (h.backed q hq).keeps hring (hkeeps q)⟩
    | ok out =>
      obtain rfl := Option.some.inj hstep
      obtain ⟨hmapped, htotal, hoff, hdata⟩ := hok rfl
      exact h.set hwf hring (fun q _ => hkeeps q) (KndClient.accept_backed
        (hbacked.keeps hring (hkeeps p)) hmapped (htotal.trans hring.totalSize.symm) hoff
        (hdata.trans hring.dataSize.symm) header)
  | closes p =>
    simp only [Machines.step] at hstep
    split at hstep
    · contradiction
    next hruns =>
    have hruns' : runsClient p = true := by simpa using hruns
    split at hstep
    · next hopen => exact Option.some.inj hstep ▸ h.forget hruns' (by simpa using hopen)
    have hbacked := h.backed p hruns'
    -- the request to unmap is only made by a client that has the ring
    split at hstep
    · obtain ⟨mid, hunmap, hrest⟩ := Option.bind_eq_some_iff.mp hstep
      obtain ⟨device, hcleanup, hset⟩ := Option.bind_eq_some_iff.mp hrest
      obtain rfl := Option.some.inj hset
      obtain ⟨hring, hkeeps⟩ := Device.step_keeps h.wf hunmap
      apply h.cleanup (h.wf.step hunmap) hring hkeeps _ hcleanup
      · exact { s.client p with ring := none }
      refine ⟨fun f hf => Iff.trans ?_ (hbacked.opened f hf),
        fun va hva => absurd hva (Option.not_mem_none va)⟩
      simp only [Device.step] at hunmap
      split at hunmap
      · exact Option.some.inj hunmap ▸ Iff.rfl
      · contradiction
    · obtain ⟨mid, hkept, hrest⟩ := Option.bind_eq_some_iff.mp hstep
      obtain rfl := Option.some.inj hkept
      obtain ⟨device, hcleanup, hset⟩ := Option.bind_eq_some_iff.mp hrest
      obtain rfl := Option.some.inj hset
      exact h.cleanup h.wf ⟨rfl, rfl⟩ (fun q _ => Device.Keeps.refl s.device q) hbacked hcleanup
  | dies p =>
    simp only [Machines.step] at hstep
    split at hstep
    · contradiction
    next hruns =>
    have hruns' : runsClient p = true := by simpa using hruns
    split at hstep
    · next hopen => exact Option.some.inj hstep ▸ h.forget hruns' (by simpa using hopen)
    obtain ⟨device, hcleanup, hset⟩ := Option.bind_eq_some_iff.mp hstep
    obtain rfl := Option.some.inj hset
    exact h.cleanup h.wf ⟨rfl, rfl⟩ (fun q _ => Device.Keeps.refl s.device q)
      (h.backed p hruns') hcleanup
  | foreign r =>
    simp only [Machines.step] at hstep
    split at hstep
    · contradiction
    next hruns =>
    obtain ⟨device, hrequest, rfl⟩ := Option.map_eq_some_iff.mp hstep
    obtain ⟨hring, hkeeps⟩ := Device.step_keeps h.wf hrequest
    refine ⟨h.wf.step hrequest, h.ring.trans hring,
      fun q hq => (h.backed q hq).keeps hring (hkeeps q ?_)⟩
    rintro rfl
    exact hruns hq

/-! ### Runs -/

omit [DecidableEq Process] in
theorem Machines.loaded_sound (runsClient : Process → Bool) (totalSize : UInt64)
    (dataSize : UInt32) :
    (Machines.loaded totalSize dataSize).Sound runsClient (.loaded totalSize dataSize) where
  wf := Device.loaded_wf totalSize dataSize
  ring := ⟨rfl, rfl⟩
  backed := fun _ _ => KndClient.closed_backed fun _ _ => List.not_mem_nil

/-- The process whose client an event is of. -/
def ClientEvent.client : ClientEvent Process → Option Process
  | .opens p _ | .maps p _ _ | .closes p | .dies p => some p
  | .foreign _ => none

/-- Whatever its client does, the process can do. -/
theorem Machines.Sound.enabled (h : start.Sound runsClient s) {e : ClientEvent Process}
    {p : Process} (he : e.client = some p) (hruns : runsClient p = true) :
    (s.step runsClient e).isSome = true := by
  have hopened := (h.backed p hruns).opened (handle p) rfl
  have hcleanup : ∀ y : Device Process, handle p ∈ y.opened → ∃ z,
      y.step (.cleanup (handle p)) = some z := by
    intro y hy
    exact ⟨_, if_pos hy⟩
  cases e with
  | opens q granted =>
    obtain rfl := Option.some.inj he
    simp only [Machines.step, hruns, Bool.not_true, Bool.false_eq_true, if_false]
    split
    · rfl
    next hopen =>
    have hnew : handle q ∉ s.device.opened := fun hmem => hopen (by simp [(hopened.mp hmem).2])
    have hcreate : ∃ z, s.device.step (.create (handle q)) = some z := ⟨_, if_neg hnew⟩
    obtain ⟨z, hz⟩ := hcreate
    rw [hz]
    rfl
  | maps q mm header =>
    obtain rfl := Option.some.inj he
    simp only [Machines.step, hruns, Bool.not_true, Bool.false_eq_true, if_false]
    split
    · rfl
    · split <;> rfl
  | closes q =>
    obtain rfl := Option.some.inj he
    simp only [Machines.step, hruns, Bool.not_true, Bool.false_eq_true, if_false]
    split
    · rfl
    next hopen =>
    have hmem := hopened.mpr ⟨rfl, by simpa using hopen⟩
    split
    · have hunmap : s.device.step (.unmapRing (handle q)) = some (s.device.unmapRing (handle q)) :=
        if_pos hmem
      obtain ⟨z, hz⟩ := hcleanup (s.device.unmapRing (handle q)) hmem
      rw [hunmap, Option.bind_eq_bind, Option.bind_some, hz]
      rfl
    · obtain ⟨z, hz⟩ := hcleanup s.device hmem
      rw [Option.bind_eq_bind, Option.bind_some, hz]
      rfl
  | dies q =>
    obtain rfl := Option.some.inj he
    simp only [Machines.step, hruns, Bool.not_true, Bool.false_eq_true, if_false]
    split
    · rfl
    next hopen =>
    obtain ⟨z, hz⟩ := hcleanup s.device (hopened.mpr ⟨rfl, by simpa using hopen⟩)
    rw [hz]
    rfl
  | foreign r => contradiction

omit [DecidableEq Process] in
/-- What is mapped in the process of a client is behind its open handle. -/
theorem Machines.Sound.mapped_open (h : start.Sound runsClient s) {x : Process × UInt64}
    (hx : x ∈ s.device.mappings) (hruns : runsClient x.1 = true) :
    (s.client x.1).isOpen = true := by
  obtain hfree | ⟨p, va, hmapped⟩ := h.wf.agree
  · rw [hfree.mappings] at hx
    contradiction
  · rw [hmapped.mappings, List.mem_singleton] at hx
    subst hx
    obtain ⟨f, hf, hfp⟩ := hmapped.opened
    exact (((h.backed p hruns).opened f hfp).mp hf).2

/-- A client that Windows lets open the device has a handle on it. -/
theorem Machines.Sound.opens (h : start.Sound runsClient s) {p : Process}
    (hruns : runsClient p = true) :
    ∃ t, s.step runsClient (.opens p true) = some t ∧ (t.client p).isOpen = true := by
  obtain ⟨t, ht⟩ := Option.isSome_iff_exists.mp (h.enabled (e := .opens p true) rfl hruns)
  refine ⟨t, ht, ?_⟩
  simp only [Machines.step, hruns, Bool.not_true, Bool.or_false, Bool.false_eq_true, if_false] at ht
  split at ht
  · next hopen => exact Option.some.inj ht ▸ hopen
  · obtain ⟨device, -, hset⟩ := Option.bind_eq_some_iff.mp ht
    obtain rfl := Option.some.inj hset
    show (Function.update s.client p _ p).isOpen = true
    rw [Function.update_self]

/-- A client that closes is as new, and nothing is left mapped in its process. -/
theorem Machines.Sound.closes (h : start.Sound runsClient s) {p : Process}
    (hruns : runsClient p = true) :
    ∃ t, s.step runsClient (.closes p) = some t ∧ t.client p = .closed ∧
      ∀ va, (p, va) ∉ t.device.mappings := by
  obtain ⟨t, ht⟩ := Option.isSome_iff_exists.mp (h.enabled (e := .closes p) rfl hruns)
  have hclosed : t.client p = .closed := by
    simp only [Machines.step, hruns, Bool.not_true, Bool.false_eq_true, if_false] at ht
    split at ht
    · exact Option.some.inj ht ▸ Function.update_self ..
    -- whether or not the ring is given back first, the handle is closed last
    split at ht
    all_goals
      obtain ⟨mid, -, hrest⟩ := Option.bind_eq_some_iff.mp ht
      obtain ⟨device, -, hset⟩ := Option.bind_eq_some_iff.mp hrest
      obtain rfl := Option.some.inj hset
      exact Function.update_self ..
  refine ⟨t, ht, hclosed, fun va hx => ?_⟩
  have hopen := (h.step ht).mapped_open hx hruns
  rw [hclosed] at hopen
  exact Bool.false_ne_true hopen

/-- A client has the ring behind its request exactly where no other process has it mapped. -/
theorem Machines.Sound.maps_iff (h : start.Sound runsClient s) {p : Process}
    (hruns : runsClient p = true) (hopen : (s.client p).isOpen = true) {va : UInt64} (hva : va ≠ 0)
    {header : HeaderSeen} (hheader : header.ok = true) :
    ∃ t, s.step runsClient (.maps p (.address va) header) = some t ∧
      ((t.client p).ring.isSome = true ↔ ∀ x ∈ s.device.mappings, x.1 = p) := by
  have hstep : s.step runsClient (.maps p (.address va) header) =
      match s.device.mapRing (handle p) sizeofKndMapRingOut (.address va) with
      | (device, .ok out) => some (({ s with device }).set p ((s.client p).accept out header))
      | (device, .error _) => some { s with device } := by
    simp only [Machines.step, hruns, hopen, Bool.not_true, Bool.false_eq_true, if_false]
  have hgiven : ∀ (device : Device Process) (out : KndMapRingOut), out.userVa ≠ 0 →
      ((({ s with device } : Machines Process).set p
        ((s.client p).accept out header)).client p).ring.isSome = true := by
    intro device out hout
    show (Function.update s.client p _ p).ring.isSome = true
    rw [Function.update_self, KndClient.accept, if_neg (by simp [hout, hheader])]
    rfl
  rw [hstep, Device.mapRing, if_neg (Nat.lt_irrefl _)]
  simp only [kndMapRingToUser, h.wf.ringMdl, Bool.not_true, Bool.false_eq_true, if_false]
  obtain hfree | ⟨q, va', hmapped⟩ := h.wf.agree
  · rw [hfree.userVa, hfree.mappings]
    simp only [hva, if_false]
    exact ⟨_, rfl, iff_of_true (hgiven _ _ hva) (List.forall_mem_nil _)⟩
  · rw [hmapped.userVa, hmapped.mapProcess, hmapped.mappings]
    by_cases hq : q = p
    · subst hq
      simp only [handle, if_true]
      exact ⟨_, rfl, iff_of_true (hgiven _ _ hmapped.address)
        fun x hx => congrArg Prod.fst (List.mem_singleton.mp hx)⟩
    · have hbusy : ¬some q = some (handle p).process := fun heq => hq (Option.some.inj heq)
      simp only [hbusy, if_false]
      refine ⟨_, rfl, iff_of_false (fun hring => ?_) fun hall => hq (hall _ (List.mem_singleton_self _))⟩
      obtain ⟨va₁, hva₁⟩ := Option.isSome_iff_exists.mp hring
      have hmem := ((h.backed p hruns).mapped va₁ hva₁).1
      rw [hmapped.mappings, List.mem_singleton] at hmem
      exact hq (congrArg Prod.fst hmem).symm

/-- After every run of clients and of others: what a client polls is mapped in its process, whole and
alive; no other client polls; and what is mapped in a client's process is behind its open handle.
Whatever has happened, a client can open the device and close it again, and gets the ring unless
another process has it mapped. -/
theorem clients_never_dangle {totalSize : UInt64} {dataSize : UInt32}
    {es : List (ClientEvent Process)}
    (hrun : runEvents (Machines.step runsClient) (.loaded totalSize dataSize) es = some s) :
    (∀ p va, runsClient p = true → (s.client p).ring = some va →
      (p, va) ∈ s.device.mappings ∧ (s.client p).dataOffset = UInt32.ofNat kndRingDataOffset ∧
        (s.client p).dataSize = dataSize ∧ (s.client p).mappedSize = totalSize) ∧
      (∀ p q, runsClient p = true → runsClient q = true → (s.client p).ring.isSome = true →
        (s.client q).ring.isSome = true → p = q) ∧
      (∀ x ∈ s.device.mappings, runsClient x.1 = true → (s.client x.1).isOpen = true) ∧
      (∀ p, runsClient p = true →
        (∃ t, s.step runsClient (.opens p true) = some t ∧ (t.client p).isOpen = true) ∧
          ∃ t, s.step runsClient (.closes p) = some t ∧ t.client p = .closed ∧
            ∀ va, (p, va) ∉ t.device.mappings) ∧
      ∀ p va header, runsClient p = true → (s.client p).isOpen = true → va ≠ 0 →
        header.ok = true → ∃ t, s.step runsClient (.maps p (.address va) header) = some t ∧
          ((t.client p).ring.isSome = true ↔ ∀ x ∈ s.device.mappings, x.1 = p) := by
  have hsound : (Machines.loaded totalSize dataSize).Sound runsClient s :=
    runEvents_invariant (fun _ : ClientEvent Process => True) (fun _ _ _ _ h hstep => h.step hstep)
      (Machines.loaded_sound runsClient totalSize dataSize) (fun _ _ => trivial) hrun
  refine ⟨fun p va hp hva => ?_, fun p q hp hq hpring hqring => ?_,
    fun x hx hruns => hsound.mapped_open hx hruns,
    fun p hruns => ⟨hsound.opens hruns, hsound.closes hruns⟩,
    fun p va header hruns hopen hva hheader => hsound.maps_iff hruns hopen hva hheader⟩
  · obtain ⟨hmem, hoff, hdata, htotal⟩ := (hsound.backed p hp).mapped va hva
    exact ⟨hmem, hoff, hdata.trans hsound.ring.dataSize, htotal.trans hsound.ring.totalSize⟩
  · obtain ⟨va, hva⟩ := Option.isSome_iff_exists.mp hpring
    obtain ⟨va', hva'⟩ := Option.isSome_iff_exists.mp hqring
    exact congrArg Prod.fst (hsound.wf.one _ ((hsound.backed p hp).mapped va hva).1 _
      ((hsound.backed q hq).mapped va' hva').1)

/-- The client of process 1 dies with the ring, and process 2 gets it; process 3 runs no client. -/
def handedOver : List (ClientEvent Nat) :=
  [.opens 1 true, .maps 1 (.address 0x10000) ⟨0x52444E4B, 1⟩, .foreign (.create ⟨3, 0⟩),
    .foreign (.mapRing ⟨3, 0⟩ 24 (.address 0x30000)), .opens 2 true,
    .maps 2 (.address 0x20000) ⟨0x52444E4B, 1⟩, .dies 1,
    .maps 2 (.address 0x20000) ⟨0x52444E4B, 1⟩]

/-- Only process 3 runs no client. -/
def runs123 (p : Nat) : Bool := p != 3

theorem clients_never_dangle_handedOver : ∃ s : Machines Nat,
    runEvents (Machines.step runs123) (.loaded 0x11000 0x10000) handedOver = some s ∧
      (s.client 2).ring = some 0x20000 ∧ (2, 0x20000) ∈ s.device.mappings ∧
      ∀ q, runs123 q = true → (s.client q).ring.isSome = true → q = 2 := by
  obtain ⟨s, hs⟩ : ∃ s, runEvents (Machines.step runs123) (.loaded 0x11000 0x10000) handedOver =
    some s := Option.isSome_iff_exists.mp (by decide +kernel)
  have hring : (s.client 2).ring = some 0x20000 := by
    have hmap : (runEvents (Machines.step runs123) (.loaded 0x11000 0x10000) handedOver).map
        (fun s => (s.client 2).ring) = some (some 0x20000) := by decide +kernel
    rw [hs] at hmap
    exact Option.some.inj hmap
  obtain ⟨hmapped, hone, -⟩ := clients_never_dangle hs
  exact ⟨s, hs, hring, (hmapped 2 0x20000 rfl hring).1, fun q hq hqring =>
    hone q 2 hq rfl hqring (by rw [hring]; rfl)⟩

end NetDebugger.Driver
