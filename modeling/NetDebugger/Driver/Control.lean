import NetDebugger.Driver.Phys
import NetDebugger.Redirect
import NetDebugger.Ring.Counters

/-! The control plane, `KndDispatchDeviceControl`.  A request carries a code and a buffer of which the
caller has written only the input; the ring header is read and written where it lies in the ring,
which the scoped physical requests reach as well. -/

namespace NetDebugger.Driver

open Lib

def statusInvalidDeviceRequest : NtStatus := 0xC0000010

/-! ### The codes -/

def kndDeviceType : UInt32 := 0x8013

def methodBuffered : UInt32 := 0
def fileAnyAccess : UInt32 := 0

/-- `KND_IOCTL`, with the method and the access that all the codes have. -/
def kndIoctl (fn : UInt32) : UInt32 :=
  (kndDeviceType <<< 16) ||| (fileAnyAccess <<< 14) ||| (fn <<< 2) ||| methodBuffered

inductive Ioctl
  | getVersion | mapRing | unmapRing | startCapture | stopCapture | getStats | setRedirect
  | physRead | physWrite
deriving DecidableEq

def Ioctl.code : Ioctl → UInt32
  | .getVersion => kndIoctl 0x800
  | .mapRing => kndIoctl 0x801
  | .unmapRing => kndIoctl 0x802
  | .startCapture => kndIoctl 0x803
  | .stopCapture => kndIoctl 0x804
  | .getStats => kndIoctl 0x805
  | .setRedirect => kndIoctl 0x806
  | .physRead => kndIoctl 0x810
  | .physWrite => kndIoctl 0x811

/-- The cases of the switch. -/
def ioctls : List Ioctl :=
  [.getVersion, .mapRing, .unmapRing, .startCapture, .stopCapture, .getStats, .setRedirect,
    .physRead, .physWrite]

def Ioctl.ofCode (code : UInt32) : Option Ioctl := ioctls.find? (·.code = code)

theorem Ioctl.ofCode_code (i : Ioctl) : Ioctl.ofCode i.code = some i := by
  cases i <;> decide +kernel

/-! ### The buffers -/

def kndDriverVersion : Nat := 1

def sizeofKndVersionOut : Nat := 8
def sizeofKndRedirectIn : Nat := 8
def sizeofKndStatsOut : Nat := 56

/-- `KND_VERSION_OUT`. -/
def versionBytes : List UInt8 := leBytes 4 kndProtocolVersion ++ leBytes 4 kndDriverVersion

def KndMapRingOut.bytes (out : KndMapRingOut) : List UInt8 :=
  leBytes 8 out.userVa.toNat ++ leBytes 8 out.totalSize.toNat ++ leBytes 4 out.dataOffset.toNat ++
    leBytes 4 out.dataSize.toNat

/-- `KND_REDIRECT_IN` behind a pointer. -/
def redirectIn (p : Nat → UInt8) : Redirect.KndRedirectIn where
  enable := UInt32.ofNat (readNat p 0 4)
  proxyPort := UInt16.ofNat (readNat p 4 2)

/-- `KND_STATS_OUT` in memory. -/
def statsBytes (st : Ring.KndStatsOut) : List UInt8 :=
  leBytes 8 st.writePos ++ leBytes 8 st.readPos ++ leBytes 8 st.totalRecords ++
    leBytes 8 st.droppedRecords ++ leBytes 8 st.totalBytes ++ leBytes 8 st.droppedBytes ++
    leBytes 4 st.activeFlows ++ leBytes 4 st.captureActive

/-- A field of `KND_RING_HEADER`: its offset and its width. -/
structure HeaderField where
  off : Nat
  width : Nat

def fieldMagic : HeaderField := ⟨0, 4⟩
def fieldVersion : HeaderField := ⟨4, 4⟩
def fieldWritePos : HeaderField := ⟨64, 8⟩
def fieldTotalRecords : HeaderField := ⟨72, 8⟩
def fieldTotalBytes : HeaderField := ⟨80, 8⟩
def fieldDroppedRecords : HeaderField := ⟨88, 8⟩
def fieldDroppedBytes : HeaderField := ⟨96, 8⟩
def fieldCaptureActive : HeaderField := ⟨104, 4⟩
def fieldActiveFlows : HeaderField := ⟨108, 4⟩
def fieldReadPos : HeaderField := ⟨128, 8⟩

def sizeofKndRingHeader : Nat := 192

/-! ### The dispatcher -/

/-- The part of `KND_DEVICE_CONTEXT` that requests use, and the memory. -/
structure Kernel (Process : Type) where
  mapping : DeviceContext Process
  cache : CacheContext
  captureActive : UInt32
  redirect : Redirect.RedirectState
  mem : Memory

/-- A completed request. The first `information` bytes of the buffer go back to the caller. -/
structure Reply where
  status : NtStatus
  information : Nat
  systemBuffer : List UInt8

def Reply.output (r : Reply) : List UInt8 := r.systemBuffer.take r.information

variable {Process : Type} [DecidableEq Process]

/-- A field of the header, where it lies in the ring. -/
def Kernel.field (mm : Machine) (k : Kernel Process) (f : HeaderField) : Nat :=
  readNat (mm.table.view k.mem) (k.cache.ringBase.toNat + f.off) f.width

/-- `ctx->CaptureActive` and `ctx->Ring->captureActive`. -/
def Kernel.setCapture (mm : Machine) (k : Kernel Process) (active : UInt32) : Kernel Process :=
  { k with
    captureActive := active
    mem :=
      if k.cache.ringBase = 0 then k.mem
      else
        mm.table.storeAll k.mem
          (blockStores (k.cache.ringBase.toNat + fieldCaptureActive.off) (leBytes 4 active.toNat)) }

def Kernel.stats (mm : Machine) (k : Kernel Process) : Ring.KndStatsOut where
  writePos := k.field mm fieldWritePos
  readPos := k.field mm fieldReadPos
  totalRecords := k.field mm fieldTotalRecords
  droppedRecords := k.field mm fieldDroppedRecords
  totalBytes := k.field mm fieldTotalBytes
  droppedBytes := k.field mm fieldDroppedBytes
  activeFlows := k.field mm fieldActiveFlows
  captureActive := k.field mm fieldCaptureActive

/-- A request that ends without information. -/
def Irp.ends (irp : Irp) (status : NtStatus) : Reply := ⟨status, 0, irp.systemBuffer⟩

/-- A request that fills the beginning of the buffer. -/
def Irp.fills (irp : Irp) (bs : List UInt8) : Option Reply :=
  (overwrite irp.systemBuffer 0 bs).map fun buffer => ⟨statusSuccess, bs.length, buffer⟩

/-- The outcome of a scoped physical request. -/
def Kernel.copied (k : Kernel Process) (c : Completed) : Kernel Process × Reply :=
  ({ k with mem := c.mem }, ⟨c.status, c.information, c.systemBuffer⟩)

/-- The switch of `KndDispatchDeviceControl`, in the process `current`; `map` is what the memory
manager answers to a request to map the ring. `none` is an access outside the buffer. -/
def Kernel.control (mm : Machine) (map : MmAnswer) (current : Process) (k : Kernel Process)
    (irp : Irp) : Option Ioctl → Option (Kernel Process × Reply)
  | none => some (k, irp.ends statusInvalidDeviceRequest)
  | some .getVersion =>
    if irp.outputBufferLength.toNat < sizeofKndVersionOut then
      some (k, irp.ends statusBufferTooSmall)
    else (irp.fills versionBytes).map fun r => (k, r)
  | some .mapRing =>
    if irp.outputBufferLength.toNat < sizeofKndMapRingOut then
      some (k, irp.ends statusBufferTooSmall)
    else
      match kndMapRingToUser k.mapping current map with
      | (mapping, .ok out) => (irp.fills out.bytes).map fun r => ({ k with mapping }, r)
      | (mapping, .error status) => some ({ k with mapping }, irp.ends status)
  | some .unmapRing =>
    some ({ k with mapping := kndUnmapRingFromUser k.mapping current }, irp.ends statusSuccess)
  | some .startCapture => some (k.setCapture mm 1, irp.ends statusSuccess)
  | some .stopCapture => some (k.setCapture mm 0, irp.ends statusSuccess)
  | some .setRedirect =>
    if irp.inputBufferLength.toNat < sizeofKndRedirectIn then
      some (k, irp.ends statusBufferTooSmall)
    else
      let rq := redirectIn (pointer irp.systemBuffer)
      some ({ k with redirect := Redirect.kndSetRedirect k.redirect rq }, irp.ends statusSuccess)
  | some .getStats =>
    if irp.outputBufferLength.toNat < sizeofKndStatsOut then
      some (k, irp.ends statusBufferTooSmall)
    else if k.cache.ringBase = 0 then some (k, irp.ends statusDeviceNotReady)
    else (irp.fills (statsBytes (k.stats mm))).map fun r => (k, r)
  | some .physRead => (ioctlKndPhysRead mm k.cache k.mem irp).map k.copied
  | some .physWrite => (ioctlKndPhysWrite mm k.cache k.mem irp).map k.copied

/-- `KndDispatchDeviceControl`. Without a context the device is not ready. -/
def kndDispatchDeviceControl (mm : Machine) (map : MmAnswer) (current : Process)
    (g : Option (Kernel Process)) (code : UInt32) (irp : Irp) :
    Option (Option (Kernel Process) × Reply) :=
  match g with
  | none => some (none, irp.ends statusDeviceNotReady)
  | some k => (k.control mm map current irp (Ioctl.ofCode code)).map fun (k, r) => (some k, r)

end NetDebugger.Driver
