import NetDebugger.Driver.Control
import NetDebugger.Lib.Patch

/-! What the control plane is for: a panel with the bytes of the ring, one lease of it to a process at a
time, and two switches.  A caller of the panel is seen by its input alone, so whatever else lies in a
system buffer has no part in what it says. -/

namespace NetDebugger.Driver

open Lib

variable {Process : Type} [DecidableEq Process]

/-! ### The panel -/

/-- What a caller has put into a request: its process, the code, the input, and how much output it has
room for; with what the memory manager will answer. -/
structure Ask (Process : Type) where
  current : Process
  code : UInt32
  input : List UInt8
  outLen : Nat
  map : MmAnswer

/-- The ring is mapped at `va`, for its holder. -/
structure Lease (Process : Type) where
  holder : Option Process
  va : UInt64

/-- How large the ring is, and its data area. -/
structure RingSize where
  total : UInt64
  data : UInt32

/-- The control plane as its callers see it: whether there is a ring to map and who has it, the
capture flag, where connects are sent, and the bytes of the ring. -/
structure Panel (Process : Type) where
  size : Option RingSize
  lease : Option (Lease Process)
  captureActive : UInt32
  redirecting : Bool
  proxyPort : UInt16
  redirectHandle : Bool
  region : List UInt8

def HeaderField.of (f : HeaderField) (region : List UInt8) : List UInt8 := part region f.off f.width

def Panel.setCapture (y : Panel Process) (active : UInt32) : Panel Process :=
  { y with
    captureActive := active
    region := patch y.region fieldCaptureActive.off (leBytes 4 active.toNat) }

/-- The fields of the header in the order of `KND_STATS_OUT`. -/
def statsOf (region : List UInt8) : List UInt8 :=
  fieldWritePos.of region ++ fieldReadPos.of region ++ fieldTotalRecords.of region ++
    fieldDroppedRecords.of region ++ fieldTotalBytes.of region ++ fieldDroppedBytes.of region ++
    fieldActiveFlows.of region ++ fieldCaptureActive.of region

/-- The output of a request, or why it was turned down. -/
abbrev Answer := Except NtStatus (List UInt8)

/-- A request that is answered if there is room for the answer. -/
def answered (y : Panel Process) (outLen : Nat) (bs : List UInt8) : Panel Process × Answer :=
  if outLen < bs.length then (y, .error statusBufferTooSmall) else (y, .ok bs)

/-- What a process is told of its lease: the address, the two sizes, and where the data begins. -/
def RingSize.told (size : RingSize) (va : UInt64) : List UInt8 :=
  leBytes 8 va.toNat ++ leBytes 8 size.total.toNat ++ leBytes 4 kndRingDataOffset ++
    leBytes 4 size.data.toNat

/-- The address that the memory manager gives, or why there is none. -/
def MmAnswer.granted : MmAnswer → Except NtStatus UInt64
  | .address va => if va = 0 then .error statusInsufficientResources else .ok va
  | .raised code => .error (if ntSuccess code then statusInsufficientResources else code)

/-- A process asks for the ring. It gets its own lease again, and a new one where nobody has any. -/
def Panel.map (y : Panel Process) (current : Process) (answer : MmAnswer) :
    Panel Process × Answer :=
  match y.size, y.lease with
  | none, _ => (y, .error statusDeviceNotReady)
  | some size, some lease =>
    if lease.holder = some current then (y, .ok (size.told lease.va))
    else (y, .error statusDeviceBusy)
  | some size, none =>
    match answer.granted with
    | .ok va => ({ y with lease := some ⟨some current, va⟩ }, .ok (size.told va))
    | .error status => (y, .error status)

/-- A process gives the ring back. The lease of another stays. -/
def Panel.unmap (y : Panel Process) (current : Process) : Panel Process :=
  { y with lease := y.lease.filter fun lease => lease.holder ≠ some current }

/-- A switch, of which any byte may be set, and behind it the port of the proxy. -/
def Panel.redirect (y : Panel Process) (input : List UInt8) : Panel Process :=
  { y with
    redirecting := (part input 0 4).any (· ≠ 0)
    proxyPort := UInt16.ofNat (leNat (part input 4 2)) }

/-- A read of the ring. -/
def Panel.read (y : Panel Process) (req : KndPhysRw) (outLen : Nat) : Panel Process × Answer :=
  if req.length.toNat = 0 ∨ kndMaxPhysRw.toNat < req.length.toNat then
    (y, .error statusInvalidParameter)
  else if outLen < req.length.toNat then (y, .error statusBufferTooSmall)
  else if y.region.length < req.offset.toNat + req.length.toNat then
    (y, .error statusInvalidParameter)
  else (y, .ok (part y.region req.offset.toNat req.length.toNat))

/-- A write to the ring, with `data` behind the request. -/
def Panel.write (y : Panel Process) (req : KndPhysRw) (data : List UInt8) : Panel Process × Answer :=
  if req.length.toNat = 0 ∨ kndMaxPhysRw.toNat < req.length.toNat then
    (y, .error statusInvalidParameter)
  else if data.length < req.length.toNat then (y, .error statusBufferTooSmall)
  else if y.region.length < req.offset.toNat + req.length.toNat then
    (y, .error statusInvalidParameter)
  else
    ({ y with region := patch y.region req.offset.toNat (data.take req.length.toNat) }, .ok [])

def Ask.request (a : Ask Process) : KndPhysRw := KndPhysRw.read (pointer a.input)

def Panel.serve (y : Panel Process) (a : Ask Process) : Panel Process × Answer :=
  match Ioctl.ofCode a.code with
  | none => (y, .error statusInvalidDeviceRequest)
  | some .getVersion => answered y a.outLen versionBytes
  | some .mapRing =>
    if a.outLen < sizeofKndMapRingOut then (y, .error statusBufferTooSmall)
    else y.map a.current a.map
  | some .unmapRing => (y.unmap a.current, .ok [])
  | some .startCapture => (y.setCapture 1, .ok [])
  | some .stopCapture => (y.setCapture 0, .ok [])
  | some .setRedirect =>
    if a.input.length < sizeofKndRedirectIn then (y, .error statusBufferTooSmall)
    else (y.redirect a.input, .ok [])
  | some .getStats => answered y a.outLen (statsOf y.region)
  | some .physRead =>
    if a.input.length < sizeofKndPhysRw then (y, .error statusBufferTooSmall)
    else y.read a.request a.outLen
  | some .physWrite =>
    if a.input.length < sizeofKndPhysRw then (y, .error statusBufferTooSmall)
    else y.write a.request (a.input.drop sizeofKndPhysRw)

/-- The answers of a panel to a list of requests. -/
def Panel.run (y : Panel Process) : List (Ask Process) → Panel Process × List Answer
  | [] => (y, [])
  | a :: asks =>
    let (y, answer) := y.serve a
    let (y, answers) := y.run asks
    (y, answer :: answers)

theorem serve_physRead {a : Ask Process} (h : Ioctl.ofCode a.code = some .physRead)
    (y : Panel Process) : y.serve a =
      if a.input.length < sizeofKndPhysRw then (y, .error statusBufferTooSmall)
      else y.read a.request a.outLen := by
  rw [Panel.serve, h]

theorem serve_physWrite {a : Ask Process} (h : Ioctl.ofCode a.code = some .physWrite)
    (y : Panel Process) : y.serve a =
      if a.input.length < sizeofKndPhysRw then (y, .error statusBufferTooSmall)
      else y.write a.request (a.input.drop sizeofKndPhysRw) := by
  rw [Panel.serve, h]

/-! ### The dispatcher as a panel -/

/-- A request as it reaches the dispatcher. -/
structure ControlCall (Process : Type) where
  current : Process
  code : UInt32
  irp : Irp
  map : MmAnswer

/-- The input of a buffered request. -/
def Irp.input (irp : Irp) : List UInt8 := irp.systemBuffer.take irp.inputBufferLength.toNat

def ControlCall.ask (c : ControlCall Process) : Ask Process :=
  ⟨c.current, c.code, c.irp.input, c.irp.outputBufferLength.toNat, c.map⟩

def Reply.answer (r : Reply) : Answer :=
  if ntSuccess r.status then .ok r.output else .error r.status

def DeviceContext.size (ctx : DeviceContext Process) : Option RingSize :=
  if ctx.ringMdl then some ⟨ctx.ringTotalSize, ctx.ringDataSize⟩ else none

def DeviceContext.lease (ctx : DeviceContext Process) : Option (Lease Process) :=
  ctx.userVa.map fun va => ⟨ctx.mapProcess, va⟩

def Kernel.panel (mm : Machine) (k : Kernel Process) : Panel Process where
  size := k.mapping.size
  lease := k.mapping.lease
  captureActive := k.captureActive
  redirecting := k.redirect.redirectEnable
  proxyPort := k.redirect.redirectPort
  redirectHandle := k.redirect.redirectHandleCreated
  region := k.cache.region mm k.mem

/-- The dispatcher on a list of requests. -/
def Kernel.run (mm : Machine) (k : Kernel Process) :
    List (ControlCall Process) → Option (Kernel Process × List Reply)
  | [] => some (k, [])
  | c :: calls => do
    let (k, r) ← k.control mm c.map c.current c.irp (Ioctl.ofCode c.code)
    let (k, rs) ← k.run mm calls
    some (k, r :: rs)

/-- A ring with room for its header, behind a memory manager that serves it. -/
structure Kernel.Ready (mm : Machine) (k : Kernel Process) : Prop where
  created : k.cache.Created
  serves : mm.Serves k.cache
  header : sizeofKndRingHeader ≤ k.cache.ringTotalSize.toNat

/-- A request that has been served: by the panel's answer, within the output buffer, and without any
effect where it failed. -/
structure Reply.Serves (r : Reply) (mm : Machine) (k k' : Kernel Process) (c : ControlCall Process) :
    Prop where
  cache : k'.cache = k.cache
  panel : (k'.panel mm, r.answer) = (k.panel mm).serve c.ask
  room : r.information ≤ c.irp.outputBufferLength.toNat
  failed : ntSuccess r.status = false → k' = k ∧ r.information = 0

theorem part_region {mm : Machine} {ctx : CacheContext} (mem : Memory) {off n : Nat}
    (h : off + n ≤ ctx.ringTotalSize.toNat) :
    part (ctx.region mm mem) off n = readBytes (mm.table.view mem) (ctx.ringBase.toNat + off) n :=
  (region_slice mm ctx mem h).symm

theorem region_length (mm : Machine) (ctx : CacheContext) (mem : Memory) :
    (ctx.region mm mem).length = ctx.ringTotalSize.toNat := readBytes_length ..

omit [DecidableEq Process] in
/-- The number in a field of the header, spelled out again, is what lies there. -/
theorem Kernel.field_bytes {mm : Machine} {k : Kernel Process} {f : HeaderField}
    (h : f.off + f.width ≤ k.cache.ringTotalSize.toNat) :
    leBytes f.width (k.field mm f) = f.of (k.panel mm).region := by
  have hread := @part_region mm _ k.mem _ _ h
  have hspell := leBytes_leNat (readBytes (mm.table.view k.mem) (k.cache.ringBase.toNat + f.off)
    f.width)
  rw [readBytes_length] at hspell
  exact hspell.trans hread.symm

omit [DecidableEq Process] in
theorem Kernel.statsBytes_eq {mm : Machine} {k : Kernel Process} (hk : k.Ready mm) :
    statsBytes (k.stats mm) = statsOf (k.panel mm).region := by
  have hheader := hk.header
  have hfield (f : HeaderField) (hf : f.off + f.width ≤ sizeofKndRingHeader) :
      leBytes f.width (k.field mm f) = f.of (k.panel mm).region :=
    k.field_bytes (Nat.le_trans hf hheader)
  unfold statsBytes statsOf
  rw [← hfield fieldWritePos (by decide), ← hfield fieldReadPos (by decide),
    ← hfield fieldTotalRecords (by decide), ← hfield fieldDroppedRecords (by decide),
    ← hfield fieldTotalBytes (by decide), ← hfield fieldDroppedBytes (by decide),
    ← hfield fieldActiveFlows (by decide), ← hfield fieldCaptureActive (by decide)]
  rfl

omit [DecidableEq Process] in
theorem Kernel.setCapture_panel {mm : Machine} {k : Kernel Process} (hk : k.Ready mm)
    (active : UInt32) : (k.setCapture mm active).panel mm = (k.panel mm).setCapture active := by
  have hheader : sizeofKndRingHeader ≤ k.cache.ringTotalSize.toNat := hk.header
  have hlen : (leBytes 4 active.toNat).length = 4 := leBytes_length ..
  have hfits : fieldCaptureActive.off + 4 ≤ sizeofKndRingHeader := by decide
  have hregion := @region_storeAll _ _ hk.serves k.mem fieldCaptureActive.off
    (leBytes 4 active.toNat) (by omega)
  unfold Kernel.setCapture Kernel.panel Panel.setCapture
  simp only [hk.created.ringBase, if_false]
  rw [hregion]
  rfl

/-! ### The buffers -/

theorem pointer_take (bs : List UInt8) {n i : Nat} (h : i < n) :
    pointer (bs.take n) i = pointer bs i := by
  simp only [pointer, List.getD_eq_getElem?_getD, List.getElem?_take_of_lt h]

theorem readNat_take (bs : List UInt8) {n off w : Nat} (h : off + w ≤ n) :
    readNat (pointer (bs.take n)) off w = readNat (pointer bs) off w :=
  congrArg leNat (readBytes_congr fun _ hi => pointer_take bs (by omega))

theorem Irp.input_length (irp : Irp) : irp.input.length = irp.inputBufferLength.toNat := by
  rw [Irp.input, List.length_take, irp.buffered]
  omega

theorem Irp.request_input {irp : Irp} (h : sizeofKndPhysRw ≤ irp.inputBufferLength.toNat) :
    KndPhysRw.read (pointer irp.input) = irp.request := by
  have hsize : sizeofKndPhysRw = 16 := rfl
  simp only [Irp.request, KndPhysRw.read, Irp.input]
  rw [readNat_take _ (by omega), readNat_take _ (by omega)]

theorem Irp.redirectIn_input {irp : Irp} (h : sizeofKndRedirectIn ≤ irp.inputBufferLength.toNat) :
    redirectIn (pointer irp.input) = redirectIn (pointer irp.systemBuffer) := by
  have hsize : sizeofKndRedirectIn = 8 := rfl
  simp only [redirectIn, Irp.input]
  rw [readNat_take _ (by omega), readNat_take _ (by omega)]

/-- The output is what was filled in, whatever the buffer held. -/
theorem Irp.fills_of_le {irp : Irp} {bs : List UInt8}
    (h : bs.length ≤ irp.outputBufferLength.toNat) :
    ∃ r, irp.fills bs = some r ∧ r.status = statusSuccess ∧ r.information = bs.length ∧
      r.output = bs := by
  have hroom : 0 + bs.length ≤ irp.systemBuffer.length := by
    rw [irp.buffered]
    omega
  refine ⟨_, by rw [Irp.fills, overwrite, if_pos hroom]; rfl, rfl, rfl, ?_⟩
  rw [Reply.output, List.take_zero, List.nil_append, List.take_left]

end NetDebugger.Driver
