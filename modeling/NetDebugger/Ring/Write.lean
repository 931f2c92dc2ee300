import NetDebugger.Lib.Stores
import NetDebugger.Protocol

/-! The kernel side of the cache ring, `driver/ring.c`: creation, and `KndRingWrite` as a plan of
byte stores followed by the publication of the new position.  Positions are the 64-bit counters of
the source; 32-bit arithmetic is written out with its reduction. -/

namespace NetDebugger.Ring

open Lib

/-- The ring part of `KND_DEVICE_CONTEXT` with the mapped region: `header` and `data` are shared
with the consumer, the rest is private to the kernel. -/
structure RingState where
  dataSize : Nat
  header : RingHeader
  data : Memory
  writePos : Nat
  nextSequence : Nat

/-- What the allocations of `KndRingCreate` return. -/
structure Allocation where
  pool : Bool
  mdl : Bool

inductive Status
  | invalidParameter
  | insufficientResources
deriving DecidableEq

/-- The ring as `KndRingCreate` leaves it: zeroed memory, the header filled in, both positions 0. -/
def RingState.fresh (size : Nat) : RingState where
  dataSize := size
  header :=
    { magic := kndRingMagic, version := kndProtocolVersion, headerSize := kndRingDataOffset,
      dataSize := size, totalSize := kndRingDataOffset + size, writePos := 0, totalRecords := 0,
      totalBytes := 0, droppedRecords := 0, droppedBytes := 0, captureActive := 0,
      activeFlows := 0, readPos := 0 }
  data := fun _ => 0
  writePos := 0
  nextSequence := 0

def kndRingCreate (alloc : Allocation) (dataSize : UInt32) : Except Status RingState :=
  let size := dataSize.toNat
  if size < 0x10000 ∨ size &&& (size - 1) ≠ 0 then .error .invalidParameter
  else if !alloc.pool then .error .insufficientResources
  else if !alloc.mdl then .error .insufficientResources
  else .ok (RingState.fresh size)

/-- A buffer argument with its length: NULL, or a pointer to at least that many bytes. -/
inductive Buffer
  | null (len : Nat)
  | bytes (bs : List UInt8)
deriving DecidableEq

def Buffer.len : Buffer → Nat
  | .null len => len
  | .bytes bs => bs.length

/-- What `RtlCopyMemory` copies: nothing from NULL. -/
def Buffer.copied : Buffer → List UInt8
  | .null _ => []
  | .bytes bs => bs

/-- The arguments of one call of `KndRingWrite`, and the time it reads from the clock. -/
structure WriteCall where
  type : UInt16
  flags : UInt16
  payload : Buffer
  data : Buffer
  timestamp : UInt64
deriving DecidableEq

/-- The 8-aligned size of the record, cast to ULONG. -/
def WriteCall.recLen (c : WriteCall) : Nat :=
  kndAlignUp (sizeofKndRecord + c.payload.len + c.data.len) % 2 ^ 32

/-- Where a record goes: `needPad` is the length of the WRAP pad before it, `recLen` its length
with an absorbed tail. -/
structure Placement where
  offset : Nat
  needPad : Nat
  recLen : Nat
  total : Nat
deriving DecidableEq

/-- Where the next record goes, whether or not there is room for it. -/
def layout (dataSize wp recLen : Nat) : Placement :=
  let offset := (wp &&& (dataSize - 1)) % 2 ^ 32
  let contig := dataSize - offset
  if recLen ≤ contig then
    -- a leftover that can never hold a record header is absorbed
    let tail := contig - recLen
    let recLen := if tail ≠ 0 ∧ tail < sizeofKndRecord then contig else recLen
    ⟨offset, 0, recLen, recLen⟩
  else ⟨offset, contig, recLen, (contig + recLen) % 2 ^ 32⟩

/-- The checks of `KndRingWrite` before its first store. On a drop they return what is added to
`droppedBytes`. -/
def place (dataSize wp rp recLen : Nat) : Except Nat Placement :=
  if recLen > dataSize then .error recLen
  else if rp > wp ∨ wp - rp > dataSize then .error recLen
  else
    let avail := dataSize - (wp - rp)
    let p := layout dataSize wp recLen
    if avail < p.total then .error p.total else .ok p

/-- A call that holds the lock and has passed every check: the stores it still has to make, and
what it publishes after them. -/
structure Pending where
  call : WriteCall
  place : Placement
  sequence : Nat
  stores : List Store

/-- The bytes of the record: header, what is copied, and the zeroed padding. The padding is
computed in ULONG arithmetic. -/
def recordBytes (c : WriteCall) (recLen sequence : Nat) : List UInt8 :=
  (KndRecord.mk recLen c.type c.flags sequence c.timestamp).bytes ++ c.payload.copied ++
    c.data.copied ++
    List.replicate ((recLen + 2 ^ 32 * 3 - sizeofKndRecord - c.payload.len - c.data.len) % 2 ^ 32) 0

/-- The header of a WRAP pad. Its body is left as it was. -/
def wrapBytes (c : WriteCall) (needPad sequence : Nat) : List UInt8 :=
  (KndRecord.mk needPad kndRecWrap 0 sequence c.timestamp).bytes

/-- The sequence number that `InterlockedIncrement64` leaves. -/
def incr64 (n : Nat) : Nat := (n + 1) % 2 ^ 64

def Pending.of (s : RingState) (c : WriteCall) (p : Placement) : Pending :=
  if p.needPad ≠ 0 then
    let sequence := incr64 (incr64 s.nextSequence)
    { call := c, place := p, sequence,
      stores := blockStores p.offset (wrapBytes c p.needPad (incr64 s.nextSequence)) ++
        blockStores 0 (recordBytes c p.recLen sequence) }
  else
    let sequence := incr64 s.nextSequence
    { call := c, place := p, sequence, stores := blockStores p.offset (recordBytes c p.recLen sequence) }

/-- A dropped record only bumps the counters. -/
def RingState.drop (s : RingState) (bytes : Nat) : RingState :=
  { s with header := { s.header with
      droppedRecords := (s.header.droppedRecords + 1) % 2 ^ 64
      droppedBytes := (s.header.droppedBytes + bytes) % 2 ^ 64 } }

/-- `KndRingWrite` up to its first store. It reads `readPos` once. -/
def beginWrite (s : RingState) (c : WriteCall) : Except RingState Pending :=
  match place s.dataSize s.writePos s.header.readPos c.recLen with
  | .error bytes => .error (s.drop bytes)
  | .ok p => .ok (Pending.of s c p)

/-- `KndRingWrite` from its last store on: the private position, its publication and the
counters. -/
def commitWrite (s : RingState) (p : Pending) : RingState :=
  let wp := (s.writePos + p.place.needPad + p.place.recLen) % 2 ^ 64
  { s with
    writePos := wp
    nextSequence := p.sequence
    header := { s.header with
      writePos := wp
      totalRecords := (s.header.totalRecords + 1) % 2 ^ 64
      totalBytes := (s.header.totalBytes + p.place.total) % 2 ^ 64 } }

/-- `KndRingWrite` as a whole: the state after the call and what it returns. -/
def kndRingWrite (s : RingState) (c : WriteCall) : RingState × Bool :=
  match beginWrite s c with
  | .error t => (t, false)
  | .ok p => (commitWrite { s with data := s.data.putAll p.stores } p, true)

end NetDebugger.Ring
