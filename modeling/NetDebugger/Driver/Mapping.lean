import NetDebugger.Lib.Runs
import NetDebugger.Protocol

/-! The mapping of the ring into user space, `driver/ioctl.c`.  The driver remembers the process that
mapped it; requests and `IRP_MJ_CLEANUP` come from file objects, of which a process may have many. -/

namespace NetDebugger.Driver

open Lib

/-! ### Statuses -/

abbrev NtStatus := UInt32

def statusSuccess : NtStatus := 0
def statusDeviceBusy : NtStatus := 0x80000011
def statusBufferTooSmall : NtStatus := 0xC0000023
def statusInsufficientResources : NtStatus := 0xC000009A
def statusDeviceNotReady : NtStatus := 0xC00000A3

/-- `NT_SUCCESS`: not negative as a LONG. -/
def ntSuccess (s : NtStatus) : Bool := s < 0x80000000

/-! ### The requests -/

/-- A file object on the device, open in a process. -/
structure FileObject (Process : Type) where
  process : Process
  id : Nat
deriving DecidableEq

/-- `KND_MAP_RING_OUT`. -/
structure KndMapRingOut where
  userVa : UInt64
  totalSize : UInt64
  dataOffset : UInt32
  dataSize : UInt32
deriving DecidableEq

def sizeofKndMapRingOut : Nat := 24

/-- The mapping part of `KND_DEVICE_CONTEXT`. -/
structure DeviceContext (Process : Type) where
  ringMdl : Bool
  ringTotalSize : UInt64
  ringDataSize : UInt32
  userVa : Option UInt64
  mapProcess : Option Process
deriving DecidableEq

/-- What `MmMapLockedPagesSpecifyCache` does: it returns an address, NULL included, or raises. -/
inductive MmAnswer
  | address (va : UInt64)
  | raised (code : NtStatus)
deriving DecidableEq

variable {Process : Type} [DecidableEq Process]

/-- `KndMapRingToUser` in the process `current`. -/
def kndMapRingToUser (ctx : DeviceContext Process) (current : Process) (mm : MmAnswer) :
    DeviceContext Process × Except NtStatus KndMapRingOut :=
  if !ctx.ringMdl then (ctx, .error statusDeviceNotReady)
  else
    let out (va : UInt64) : KndMapRingOut :=
      { userVa := va, totalSize := ctx.ringTotalSize,
        dataOffset := UInt32.ofNat kndRingDataOffset, dataSize := ctx.ringDataSize }
    match ctx.userVa with
    | some va =>
      if ctx.mapProcess = some current then (ctx, .ok (out va)) else (ctx, .error statusDeviceBusy)
    | none =>
      match mm with
      | .address va =>
        if va = 0 then (ctx, .error statusInsufficientResources)
        else ({ ctx with userVa := some va, mapProcess := some current }, .ok (out va))
      | .raised code =>
        (ctx, .error (if ntSuccess code then statusInsufficientResources else code))

/-- `KndUnmapRingFromUser` in the process `current`. -/
def kndUnmapRingFromUser (ctx : DeviceContext Process) (current : Process) :
    DeviceContext Process :=
  if ctx.userVa.isSome ∧ ctx.mapProcess = some current then
    { ctx with userVa := none, mapProcess := none }
  else ctx

/-! ### The system -/

/-- The driver with its file objects. `mappings` is what the memory manager has mapped, and `holders`
the file objects whose `IOCTL_KND_MAP_RING` succeeded and that have not given the ring back. -/
structure Device (Process : Type) where
  ctx : DeviceContext Process
  opened : List (FileObject Process)
  mappings : List (Process × UInt64)
  holders : List (FileObject Process × UInt64)
deriving DecidableEq

/-- `IOCTL_KND_MAP_RING`. A mapping is made where the context was without one and now has one. -/
def Device.mapRing (y : Device Process) (f : FileObject Process) (outLen : Nat) (mm : MmAnswer) :
    Device Process × Except NtStatus KndMapRingOut :=
  if outLen < sizeofKndMapRingOut then (y, .error statusBufferTooSmall)
  else
    match kndMapRingToUser y.ctx f.process mm with
    | (ctx, .ok out) =>
      ({ y with
          ctx := ctx
          mappings :=
            if y.ctx.userVa.isNone then (f.process, out.userVa) :: y.mappings else y.mappings
          holders := (f, out.userVa) :: y.holders.filter (·.1 ≠ f) }, .ok out)
    | (ctx, .error status) => ({ y with ctx := ctx }, .error status)

/-- `KndUnmapRingFromUser` for a file object: `MmUnmapLockedPages` runs in its process. -/
def Device.unmapRing (y : Device Process) (f : FileObject Process) : Device Process :=
  let ctx := kndUnmapRingFromUser y.ctx f.process
  { y with
    ctx := ctx
    mappings :=
      match y.ctx.userVa with
      | some va => if ctx.userVa.isNone then y.mappings.erase (f.process, va) else y.mappings
      | none => y.mappings
    holders := y.holders.filter (·.1 ≠ f) }

inductive Request (Process : Type)
  | create (f : FileObject Process)
  | mapRing (f : FileObject Process) (outLen : Nat) (mm : MmAnswer)
  | unmapRing (f : FileObject Process)
  | cleanup (f : FileObject Process)

/-- A request on an open file object. -/
def Device.step (y : Device Process) : Request Process → Option (Device Process)
  | .create f => if f ∈ y.opened then none else some { y with opened := f :: y.opened }
  | .mapRing f outLen mm => if f ∈ y.opened then some (y.mapRing f outLen mm).1 else none
  | .unmapRing f => if f ∈ y.opened then some (y.unmapRing f) else none
  | .cleanup f =>
    if f ∈ y.opened then some { y.unmapRing f with opened := y.opened.filter (· ≠ f) } else none

/-- A driver that has just loaded. -/
def Device.loaded (totalSize : UInt64) (dataSize : UInt32) : Device Process where
  ctx := ⟨true, totalSize, dataSize, none, none⟩
  opened := []
  mappings := []
  holders := []

/-- What a mapping is for. -/
structure Device.Lawful (y : Device Process) : Prop where
  /-- At most one process has the ring mapped. -/
  one : ∀ x ∈ y.mappings, ∀ z ∈ y.mappings, x = z
  /-- Another process is told that the device is busy. -/
  busy : ∀ x ∈ y.mappings, ∀ f : FileObject Process, f.process ≠ x.1 → ∀ outLen mm,
    sizeofKndMapRingOut ≤ outLen → y.mapRing f outLen mm = (y, .error statusDeviceBusy)
  /-- A file object that has been given the mapping still has it. -/
  valid : ∀ h ∈ y.holders, (h.1.process, h.2) ∈ y.mappings
  /-- Once the file objects of the mapping process are gone, the next request maps the ring. -/
  released : (∀ x ∈ y.mappings, ∀ f ∈ y.opened, f.process ≠ x.1) →
    ∀ (f : FileObject Process) outLen va, sizeofKndMapRingOut ≤ outLen → va ≠ 0 →
      ∃ out, (y.mapRing f outLen (.address va)).2 = .ok out

/-- The ring is given back only while no other file object of the process holds it. -/
def Device.Careful (y : Device Process) : Request Process → Prop
  | .unmapRing f | .cleanup f => ∀ h ∈ y.holders, h.1.process = f.process → h.1 = f
  | _ => True

instance (y : Device Process) : ∀ r, Decidable (y.Careful r)
  | .unmapRing f | .cleanup f =>
    inferInstanceAs (Decidable (∀ h ∈ y.holders, h.1.process = f.process → h.1 = f))
  | .create _ | .mapRing _ _ _ => isTrue trivial

/-! ### What a request does -/

/-- Nobody has the ring mapped. -/
structure Device.Free (y : Device Process) : Prop where
  userVa : y.ctx.userVa = none
  mapProcess : y.ctx.mapProcess = none
  mappings : y.mappings = []

/-- One process has it mapped, and a file object open. -/
structure Device.MappedBy (y : Device Process) (p : Process) (va : UInt64) : Prop where
  userVa : y.ctx.userVa = some va
  mapProcess : y.ctx.mapProcess = some p
  mappings : y.mappings = [(p, va)]
  address : va ≠ 0
  opened : ∃ f ∈ y.opened, f.process = p

/-- The context and the memory manager agree. -/
structure Device.Wf (y : Device Process) : Prop where
  ringMdl : y.ctx.ringMdl = true
  agree : y.Free ∨ ∃ p va, y.MappedBy p va

def Device.Valid (y : Device Process) : Prop := ∀ h ∈ y.holders, (h.1.process, h.2) ∈ y.mappings

@[simp] theorem Device.unmapRing_opened (y : Device Process) (f : FileObject Process) :
    (y.unmapRing f).opened = y.opened := rfl

@[simp] theorem Device.unmapRing_holders (y : Device Process) (f : FileObject Process) :
    (y.unmapRing f).holders = y.holders.filter (·.1 ≠ f) := rfl

@[simp] theorem Device.unmapRing_ringMdl (y : Device Process) (f : FileObject Process) :
    (y.unmapRing f).ctx.ringMdl = y.ctx.ringMdl := by
  simp only [Device.unmapRing, kndUnmapRingFromUser]
  split <;> rfl

/-- Without a mapping there is nothing to unmap. -/
theorem Device.Free.unmapRing {y : Device Process} (h : y.Free) (f : FileObject Process) :
    (y.unmapRing f).Free := by
  have hctx : kndUnmapRingFromUser y.ctx f.process = y.ctx := by
    simp [kndUnmapRingFromUser, h.userVa]
  constructor <;> simp only [Device.unmapRing, hctx, h.userVa, h.mapProcess, h.mappings]

/-- The process of the mapping unmaps it, through whichever file object. -/
theorem Device.MappedBy.unmapRing_same {y : Device Process} {p : Process} {va : UInt64}
    (h : y.MappedBy p va) {f : FileObject Process} (hf : f.process = p) : (y.unmapRing f).Free := by
  subst hf
  have hctx : kndUnmapRingFromUser y.ctx f.process =
      { y.ctx with userVa := none, mapProcess := none } := by
    simp [kndUnmapRingFromUser, h.userVa, h.mapProcess]
  constructor <;> simp [Device.unmapRing, hctx, h.userVa, h.mappings]

/-- Another process leaves it. -/
theorem Device.MappedBy.unmapRing_other {y : Device Process} {p : Process} {va : UInt64}
    (h : y.MappedBy p va) {f : FileObject Process} (hf : f.process ≠ p) :
    (y.unmapRing f).ctx = y.ctx ∧ (y.unmapRing f).mappings = y.mappings := by
  have hctx : kndUnmapRingFromUser y.ctx f.process = y.ctx := by
    simp [kndUnmapRingFromUser, h.mapProcess, Ne.symm hf]
  simp [Device.unmapRing, hctx, h.userVa]

/-- What a request to map the ring does: nothing, a new holder of the mapping, or a new mapping. -/
theorem Device.mapRing_cases (y : Device Process) (hmdl : y.ctx.ringMdl = true)
    (f : FileObject Process) (outLen : Nat) (mm : MmAnswer) :
    (y.mapRing f outLen mm).1 = y ∨
      (∃ va, y.ctx.userVa = some va ∧ y.ctx.mapProcess = some f.process ∧
        (y.mapRing f outLen mm).1 = { y with holders := (f, va) :: y.holders.filter (·.1 ≠ f) }) ∨
      ∃ va, y.ctx.userVa = none ∧ va ≠ 0 ∧
        (y.mapRing f outLen mm).1 =
          { y with
            ctx := { y.ctx with userVa := some va, mapProcess := some f.process }
            mappings := (f.process, va) :: y.mappings
            holders := (f, va) :: y.holders.filter (·.1 ≠ f) } := by
  rw [Device.mapRing]
  split
  · exact .inl rfl
  simp only [kndMapRingToUser, hmdl, Bool.not_true, Bool.false_eq_true, if_false]
  cases hva : y.ctx.userVa with
  | some va =>
    by_cases hp : y.ctx.mapProcess = some f.process
    · exact .inr (.inl ⟨va, rfl, hp, by simp [hp]⟩)
    · exact .inl (by simp [hp])
  | none =>
    cases mm with
    | address va =>
      by_cases h0 : va = 0
      · exact .inl (by simp [h0])
      · exact .inr (.inr ⟨va, rfl, h0, by simp [h0]⟩)
    | raised code => exact .inl (by simp)

omit [DecidableEq Process] in
/-- A mapping with its file object open stays one while the context and the mappings do. -/
theorem Device.MappedBy.congr {y z : Device Process} {p : Process} {va : UInt64}
    (h : y.MappedBy p va) (hctx : z.ctx = y.ctx) (hmappings : z.mappings = y.mappings)
    (hopened : ∃ f ∈ z.opened, f.process = p) : z.MappedBy p va :=
  ⟨hctx ▸ h.userVa, hctx ▸ h.mapProcess, hmappings ▸ h.mappings, h.address, hopened⟩

omit [DecidableEq Process] in
theorem Device.Free.congr {y z : Device Process} (h : y.Free) (hctx : z.ctx = y.ctx)
    (hmappings : z.mappings = y.mappings) : z.Free :=
  ⟨hctx ▸ h.userVa, hctx ▸ h.mapProcess, hmappings ▸ h.mappings⟩

theorem Device.Wf.mapRing {y : Device Process} (h : y.Wf) {f : FileObject Process}
    (hf : f ∈ y.opened) (outLen : Nat) (mm : MmAnswer) : (y.mapRing f outLen mm).1.Wf := by
  obtain heq | ⟨va, -, -, heq⟩ | ⟨va, hnone, h0, heq⟩ := y.mapRing_cases h.ringMdl f outLen mm <;>
    rw [heq]
  · exact h
  · refine ⟨h.ringMdl, ?_⟩
    obtain hfree | ⟨p, va', hmapped⟩ := h.agree
    · exact .inl (hfree.congr rfl rfl)
    · exact .inr ⟨p, va', hmapped.congr rfl rfl hmapped.opened⟩
  · obtain hfree | ⟨p, va', hmapped⟩ := h.agree
    · refine ⟨h.ringMdl, .inr ⟨f.process, va, rfl, rfl, ?_, h0, f, hf, rfl⟩⟩
      rw [hfree.mappings]
    · rw [hmapped.userVa] at hnone
      contradiction

/-- Giving the ring back, and then closing some of the file objects of the same process. -/
theorem Device.Wf.unmapRing {y : Device Process} (h : y.Wf) (f : FileObject Process)
    {opened : List (FileObject Process)}
    (hopened : ∀ g ∈ y.opened, g.process ≠ f.process → g ∈ opened) :
    ({ y.unmapRing f with opened } : Device Process).Wf := by
  refine ⟨(y.unmapRing_ringMdl f).trans h.ringMdl, ?_⟩
  obtain hfree | ⟨p, va, hmapped⟩ := h.agree
  · exact .inl ((hfree.unmapRing f).congr rfl rfl)
  · by_cases hp : f.process = p
    · exact .inl ((hmapped.unmapRing_same hp).congr rfl rfl)
    · obtain ⟨hctx, hmappings⟩ := hmapped.unmapRing_other hp
      obtain ⟨g, hg, hgp⟩ := hmapped.opened
      refine .inr ⟨p, va, hmapped.congr hctx hmappings ⟨g, hopened g hg ?_, hgp⟩⟩
      rw [hgp]
      exact Ne.symm hp

theorem Device.Wf.step {y z : Device Process} {r : Request Process} (h : y.Wf)
    (hstep : y.step r = some z) : z.Wf := by
  cases r with
  | create f =>
    simp only [Device.step] at hstep
    split at hstep
    · contradiction
    obtain rfl := Option.some.inj hstep
    refine ⟨h.ringMdl, ?_⟩
    obtain hfree | ⟨p, va, hmapped⟩ := h.agree
    · exact .inl (hfree.congr rfl rfl)
    · obtain ⟨g, hg, hgp⟩ := hmapped.opened
      exact .inr ⟨p, va, hmapped.congr rfl rfl ⟨g, List.mem_cons_of_mem _ hg, hgp⟩⟩
  | mapRing f outLen mm =>
    simp only [Device.step] at hstep
    split at hstep
    · next hf => exact Option.some.inj hstep ▸ h.mapRing hf outLen mm
    · contradiction
  | unmapRing f =>
    simp only [Device.step] at hstep
    split at hstep
    · exact Option.some.inj hstep ▸ h.unmapRing f fun g hg _ => hg
    · contradiction
  | cleanup f =>
    simp only [Device.step] at hstep
    split at hstep
    · refine Option.some.inj hstep ▸ h.unmapRing f fun g hg hne => ?_
      have hgf : g ≠ f := fun heq => hne (congrArg FileObject.process heq)
      simpa [hgf] using hg
    · contradiction

/-! ### Which requests keep what was given -/

/-- A new holder is given the mapping that is there. -/
theorem Device.Valid.mapRing {y : Device Process} (hwf : y.Wf) (h : y.Valid)
    (f : FileObject Process) (outLen : Nat) (mm : MmAnswer) : (y.mapRing f outLen mm).1.Valid := by
  obtain heq | ⟨va, hva, hp, heq⟩ | ⟨va, hnone, -, heq⟩ :=
    y.mapRing_cases hwf.ringMdl f outLen mm <;> rw [heq]
  · exact h
  · obtain hfree | ⟨p, va', hmapped⟩ := hwf.agree
    · rw [hfree.userVa] at hva
      contradiction
    · intro g hg
      rcases List.mem_cons.mp hg with rfl | hg
      · obtain rfl := Option.some.inj (hmapped.userVa.symm.trans hva)
        obtain rfl := Option.some.inj (hmapped.mapProcess.symm.trans hp)
        simp [hmapped.mappings]
      · exact h g (List.mem_of_mem_filter hg)
  · intro g hg
    rcases List.mem_cons.mp hg with rfl | hg
    · exact List.mem_cons_self ..
    · exact List.mem_cons_of_mem _ (h g (List.mem_of_mem_filter hg))

/-- Giving the ring back takes it from every other holder of the process. -/
theorem Device.valid_unmapRing_iff {y : Device Process} (hwf : y.Wf) (h : y.Valid)
    (f : FileObject Process) :
    (y.unmapRing f).Valid ↔ ∀ g ∈ y.holders, g.1.process = f.process → g.1 = f := by
  obtain hfree | ⟨p, va, hmapped⟩ := hwf.agree
  · have hnone : y.holders = [] := by
      refine List.eq_nil_iff_forall_not_mem.mpr fun g hg => ?_
      have := h g hg
      rw [hfree.mappings] at this
      contradiction
    simp [Device.Valid, hnone]
  · have hprocess : ∀ g ∈ y.holders, g.1.process = p := by
      intro g hg
      have := h g hg
      rw [hmapped.mappings, List.mem_singleton] at this
      exact congrArg Prod.fst this
    by_cases hp : f.process = p
    · have hgone : (y.unmapRing f).mappings = [] := (hmapped.unmapRing_same hp).mappings
      simp only [Device.Valid, Device.unmapRing_holders, List.mem_filter, hgone, List.not_mem_nil,
        decide_eq_true_eq, imp_false, not_and, not_not]
      exact forall₂_congr fun g hg => ⟨fun heq _ => heq, fun heq => heq (by rw [hprocess g hg, hp])⟩
    · refine iff_of_true (fun g hg => ?_) fun g hg heq => absurd (heq.symm.trans (hprocess g hg)) hp
      rw [(hmapped.unmapRing_other hp).2]
      exact h g (List.mem_of_mem_filter hg)

theorem Device.step_valid {y z : Device Process} {r : Request Process} (hwf : y.Wf) (h : y.Valid)
    (hstep : y.step r = some z) : z.Valid ↔ y.Careful r := by
  cases r with
  | create f =>
    simp only [Device.step] at hstep
    split at hstep
    · contradiction
    · exact Option.some.inj hstep ▸ iff_of_true h trivial
  | mapRing f outLen mm =>
    simp only [Device.step] at hstep
    split at hstep
    · exact Option.some.inj hstep ▸ iff_of_true (h.mapRing hwf f outLen mm) trivial
    · contradiction
  | unmapRing f =>
    simp only [Device.step] at hstep
    split at hstep
    · exact Option.some.inj hstep ▸ Device.valid_unmapRing_iff hwf h f
    · contradiction
  | cleanup f =>
    simp only [Device.step] at hstep
    split at hstep
    · exact Option.some.inj hstep ▸ Device.valid_unmapRing_iff hwf h f
    · contradiction

/-! ### Runs -/

omit [DecidableEq Process] in
theorem Device.Wf.one {y : Device Process} (h : y.Wf) : ∀ x ∈ y.mappings, ∀ z ∈ y.mappings, x = z := by
  obtain hfree | ⟨p, va, hmapped⟩ := h.agree
  · simp [hfree.mappings]
  · simp [hmapped.mappings]

theorem Device.Wf.busy {y : Device Process} (h : y.Wf) {x : Process × UInt64} (hx : x ∈ y.mappings)
    {f : FileObject Process} (hf : f.process ≠ x.1) {outLen : Nat} (mm : MmAnswer)
    (hlen : sizeofKndMapRingOut ≤ outLen) : y.mapRing f outLen mm = (y, .error statusDeviceBusy) := by
  obtain hfree | ⟨p, va, hmapped⟩ := h.agree
  · rw [hfree.mappings] at hx
    contradiction
  · rw [hmapped.mappings, List.mem_singleton] at hx
    subst hx
    simp [Device.mapRing, Nat.not_lt.mpr hlen, kndMapRingToUser, h.ringMdl, hmapped.userVa,
      hmapped.mapProcess, Ne.symm hf]

theorem Device.Wf.released {y : Device Process} (h : y.Wf)
    (hclosed : ∀ x ∈ y.mappings, ∀ f ∈ y.opened, f.process ≠ x.1) (f : FileObject Process)
    {outLen : Nat} {va : UInt64} (hlen : sizeofKndMapRingOut ≤ outLen) (hva : va ≠ 0) :
    ∃ out, (y.mapRing f outLen (.address va)).2 = .ok out := by
  obtain hfree | ⟨p, va', hmapped⟩ := h.agree
  · simp [Device.mapRing, Nat.not_lt.mpr hlen, kndMapRingToUser, h.ringMdl, hfree.userVa, hva]
  · obtain ⟨g, hg, hgp⟩ := hmapped.opened
    exact absurd hgp (hclosed (p, va') (by simp [hmapped.mappings]) g hg)

/-- Only the file objects that hold the mapping can be wronged. -/
theorem Device.Wf.lawful_iff {y : Device Process} (h : y.Wf) : y.Lawful ↔ y.Valid :=
  ⟨fun hlawful => hlawful.valid, fun hvalid =>
    { one := h.one
      busy := fun _ hx _ hf _ mm hlen => h.busy hx hf mm hlen
      valid := hvalid
      released := fun hclosed f _ _ hlen hva => h.released hclosed f hlen hva }⟩

omit [DecidableEq Process] in
theorem Device.loaded_wf (totalSize : UInt64) (dataSize : UInt32) :
    (Device.loaded totalSize dataSize : Device Process).Wf := ⟨rfl, .inl ⟨rfl, rfl, rfl⟩⟩

/-- Every state of a run is lawful exactly when the ring is only given back by its last holder. -/
theorem mapping_lawful_iff {totalSize : UInt64} {dataSize : UInt32} {rs : List (Request Process)}
    {z : Device Process} (hrun : runEvents Device.step (Device.loaded totalSize dataSize) rs = some z) :
    (∀ pre y, pre <+: rs →
      runEvents Device.step (Device.loaded totalSize dataSize) pre = some y → y.Lawful) ↔
      EachStep Device.step Device.Careful (Device.loaded totalSize dataSize) rs := by
  have hwf : ∀ pre y, runEvents Device.step (Device.loaded totalSize dataSize) pre = some y →
      y.Wf := fun pre y => runEvents_invariant (fun _ : Request Process => True)
    (fun _ _ _ _ h hstep => h.step hstep) (Device.loaded_wf totalSize dataSize) fun _ _ => trivial
  have hstep : ∀ (y : Device Process) r t, y.Wf ∧ y.Valid → y.step r = some t →
      (t.Wf ∧ t.Valid ↔ y.Careful r) := fun y r t h hstep => by
    rw [and_iff_right (h.1.step hstep), Device.step_valid h.1 h.2 hstep]
  rw [← runEvents_invariant_iff hstep ⟨Device.loaded_wf totalSize dataSize, nofun⟩ hrun]
  refine forall₂_congr fun pre y => forall₂_congr fun _ hpre => ?_
  rw [(hwf pre y hpre).lawful_iff, and_iff_right (hwf pre y hpre)]

/-- Two processes take turns. -/
def turnsRun : List (Request Nat) :=
  [.create ⟨1, 0⟩, .create ⟨2, 0⟩, .mapRing ⟨1, 0⟩ 24 (.address 0x10000),
    .mapRing ⟨2, 0⟩ 24 (.address 0x20000), .cleanup ⟨1, 0⟩, .mapRing ⟨2, 0⟩ 24 (.address 0x20000),
    .unmapRing ⟨2, 0⟩]

theorem mapping_lawful_turnsRun :
    (⟨⟨true, 0x11000, 0x10000, none, none⟩, [⟨2, 0⟩], [], []⟩ : Device Nat).Lawful := by
  have hrun : runEvents Device.step (Device.loaded 0x11000 0x10000) turnsRun =
      some ⟨⟨true, 0x11000, 0x10000, none, none⟩, [⟨2, 0⟩], [], []⟩ := by decide
  exact (mapping_lawful_iff hrun).mpr (by decide) turnsRun _ (List.prefix_refl _) hrun

/-- A second file object of the process is closed, and the first one is left with a dead pointer. -/
theorem cleanup_unmaps_other : ¬ ∀ totalSize dataSize (rs : List (Request Nat)) z,
    runEvents Device.step (Device.loaded totalSize dataSize) rs = some z → z.Lawful := by
  intro h
  have hlawful := h 0x11000 0x10000
    [.create ⟨1, 0⟩, .create ⟨1, 1⟩, .mapRing ⟨1, 0⟩ 24 (.address 0x10000), .cleanup ⟨1, 1⟩]
    ⟨⟨true, 0x11000, 0x10000, none, none⟩, [⟨1, 0⟩], [], [(⟨1, 0⟩, 0x10000)]⟩ (by decide)
  have hvalid := hlawful.valid (⟨1, 0⟩, 0x10000) (List.mem_singleton_self _)
  exact absurd hvalid List.not_mem_nil

end NetDebugger.Driver
