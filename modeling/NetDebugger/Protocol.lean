import NetDebugger.Lib.LittleEndian

/-! The wire contract of `knd_protocol.h`: the constants, the record header, the two record
payloads, and how each lies in memory. Structures are packed to 8 and little-endian. -/

namespace NetDebugger

open Lib

def kndRingMagic : Nat := 0x52444E4B
def kndProtocolVersion : Nat := 1
def kndRingDataOffset : Nat := 0x1000
def kndDefaultRingDataSize : UInt32 := 32 * 1024 * 1024
def kndMaxDataChunk : Nat := 64 * 1024
def kndProcPathChars : Nat := 260
def kndRecordAlign : Nat := 8

def kndRecWrap : UInt16 := 0
def kndRecConnOpen : UInt16 := 1
def kndRecConnClose : UInt16 := 2
def kndRecData : UInt16 := 3

def kndDirOutbound : UInt8 := 0
def kndDirInbound : UInt8 := 1
def kndProtoTcp : UInt8 := 6
def kndProtoUdp : UInt8 := 17
def kndIPv4 : UInt8 := 4
def kndIPv6 : UInt8 := 6
def kndDataCiphertext : UInt8 := 0
def kndDataPlaintext : UInt8 := 1

/-- `KND_ALIGN_UP`: the macro clears the low three bits of `n + 7`. -/
def kndAlignUp (n : Nat) : Nat := (n + (kndRecordAlign - 1)) / kndRecordAlign * kndRecordAlign

/-- A host-order IPv4 address as network-order octets. -/
def octets (a : UInt32) : List UInt8 :=
  [(a >>> 24).toUInt8, (a >>> 16).toUInt8, (a >>> 8).toUInt8, a.toUInt8]

/-- `KND_RING_HEADER`, without its reserved field. `readPos` is written by the consumer, the
fields from `writePos` to `activeFlows` by the driver. -/
structure RingHeader where
  magic : Nat
  version : Nat
  headerSize : Nat
  dataSize : Nat
  totalSize : Nat
  writePos : Nat
  totalRecords : Nat
  totalBytes : Nat
  droppedRecords : Nat
  droppedBytes : Nat
  captureActive : Nat
  activeFlows : Nat
  readPos : Nat
deriving DecidableEq

/-- `KND_RECORD`: the prefix of every record. -/
structure KndRecord where
  length : Nat
  type : UInt16
  flags : UInt16
  sequence : Nat
  timestamp : UInt64
deriving DecidableEq

def sizeofKndRecord : Nat := 24

def KndRecord.bytes (r : KndRecord) : List UInt8 :=
  leBytes 4 r.length ++ leBytes 2 r.type.toNat ++ leBytes 2 r.flags.toNat ++
    leBytes 8 r.sequence ++ leBytes 8 r.timestamp.toNat

/-- The record header behind a pointer. -/
def KndRecord.read (p : Nat → UInt8) : KndRecord where
  length := readNat p 0 4
  type := UInt16.ofNat (readNat p 4 2)
  flags := UInt16.ofNat (readNat p 6 2)
  sequence := readNat p 8 8
  timestamp := UInt64.ofNat (readNat p 16 8)

/-- `KND_CONN_PAYLOAD`, without its reserved fields, which are always zero. The path is an array
of `KND_PROCPATH_CHARS` WCHARs of which `processPathChars` are used. -/
structure KndConnPayload where
  flowId : UInt64
  processId : UInt64
  protocol : UInt8
  ipVersion : UInt8
  direction : UInt8
  localPort : UInt16
  remotePort : UInt16
  localAddr : List UInt8
  remoteAddr : List UInt8
  bytesIn : UInt64
  bytesOut : UInt64
  processPathChars : UInt16
  processPath : List UInt16
deriving DecidableEq

def sizeofKndConnPayload : Nat := 600

/-- A fixed array in a structure: the list cut or filled with zeros to the array's length. -/
def fixedArray {α : Type} (zero : α) (n : Nat) (xs : List α) : List α :=
  xs.take n ++ List.replicate (n - xs.length) zero

def KndConnPayload.bytes (p : KndConnPayload) : List UInt8 :=
  leBytes 8 p.flowId.toNat ++ leBytes 8 p.processId.toNat ++
    [p.protocol, p.ipVersion, p.direction, 0] ++
    leBytes 2 p.localPort.toNat ++ leBytes 2 p.remotePort.toNat ++
    fixedArray 0 16 p.localAddr ++ fixedArray 0 16 p.remoteAddr ++
    leBytes 8 p.bytesIn.toNat ++ leBytes 8 p.bytesOut.toNat ++
    leBytes 2 p.processPathChars.toNat ++ leBytes 2 0 ++ leBytes 4 0 ++
    (fixedArray 0 kndProcPathChars p.processPath).flatMap fun c => leBytes 2 c.toNat

/-- The connection payload behind a pointer. The path is only read as far as it is used. -/
def KndConnPayload.read (p : Nat → UInt8) : KndConnPayload where
  flowId := UInt64.ofNat (readNat p 0 8)
  processId := UInt64.ofNat (readNat p 8 8)
  protocol := p 16
  ipVersion := p 17
  direction := p 18
  localPort := UInt16.ofNat (readNat p 20 2)
  remotePort := UInt16.ofNat (readNat p 22 2)
  localAddr := readBytes p 24 16
  remoteAddr := readBytes p 40 16
  bytesIn := UInt64.ofNat (readNat p 56 8)
  bytesOut := UInt64.ofNat (readNat p 64 8)
  processPathChars := UInt16.ofNat (readNat p 72 2)
  processPath := (List.range (readNat p 72 2)).map fun i => UInt16.ofNat (readNat p (80 + 2 * i) 2)

/-- `KND_DATA_PAYLOAD`, without its reserved field. -/
structure KndDataPayload where
  flowId : UInt64
  direction : UInt8
  dataKind : UInt8
  dataLength : UInt32
deriving DecidableEq

def sizeofKndDataPayload : Nat := 16

def KndDataPayload.bytes (p : KndDataPayload) : List UInt8 :=
  leBytes 8 p.flowId.toNat ++ [p.direction, p.dataKind] ++ leBytes 2 0 ++
    leBytes 4 p.dataLength.toNat

def KndDataPayload.read (p : Nat → UInt8) : KndDataPayload where
  flowId := UInt64.ofNat (readNat p 0 8)
  direction := p 8
  dataKind := p 9
  dataLength := UInt32.ofNat (readNat p 12 4)

/-! ### Layout -/

theorem kndAlignUp_spec (n : Nat) : n ≤ kndAlignUp n ∧ kndAlignUp n < n + 8 ∧
    kndAlignUp n % 8 = 0 := by
  simp only [kndAlignUp, kndRecordAlign]
  omega

@[simp] theorem KndRecord.bytes_length (r : KndRecord) : r.bytes.length = 24 := by
  simp [KndRecord.bytes]

@[simp] theorem KndDataPayload.bytes_length (p : KndDataPayload) : p.bytes.length = 16 := by
  simp [KndDataPayload.bytes]

@[simp] theorem fixedArray_length {α : Type} (zero : α) (n : Nat) (xs : List α) :
    (fixedArray zero n xs).length = n := by
  simp [fixedArray]
  omega

@[simp] theorem KndConnPayload.bytes_length (p : KndConnPayload) : p.bytes.length = 600 := by
  have hpath : ∀ cs : List UInt16, (cs.flatMap fun c => leBytes 2 c.toNat).length =
      2 * cs.length := by
    intro cs
    induction cs with
    | nil => rfl
    | cons c cs ih => simp [List.flatMap_cons, ih]; omega
  simp [KndConnPayload.bytes, hpath, kndProcPathChars]

/-- A record header read where it lies is the header, if its numbers fit their fields. -/
theorem KndRecord.read_of_lies {p : Nat → UInt8} {r : KndRecord} (hl : r.length < 2 ^ 32)
    (hs : r.sequence < 2 ^ 64) (h : Lies p 0 r.bytes) : KndRecord.read p = r := by
  simp only [KndRecord.bytes, lies_append, leBytes_length, List.length_append] at h
  obtain ⟨⟨⟨⟨hlen, htype⟩, hflags⟩, hseq⟩, hts⟩ := h
  simp only [KndRecord.read, hlen.readNat_eq_of_lt hl, htype.uint16, hflags.uint16,
    hseq.readNat_eq_of_lt hs, hts.uint64]

theorem KndDataPayload.read_of_lies {p : Nat → UInt8} {dp : KndDataPayload} (h : Lies p 0 dp.bytes) :
    KndDataPayload.read p = dp := by
  simp only [KndDataPayload.bytes, lies_append, leBytes_length, List.length_append, lies_cons,
    List.length_cons, List.length_nil] at h
  obtain ⟨⟨⟨hid, hdir, hkind, -⟩, -⟩, hlen⟩ := h
  simp only [KndDataPayload.read, hid.uint64, hlen.uint32]
  simp_all

/-- What a producer keeps to when it fills in a connection payload. -/
structure KndConnPayload.Valid (cp : KndConnPayload) : Prop where
  localAddr : cp.localAddr.length = 16
  remoteAddr : cp.remoteAddr.length = 16
  chars : cp.processPathChars.toNat = cp.processPath.length
  path : cp.processPath.length ≤ kndProcPathChars

theorem fixedArray_of_length {α : Type} (zero : α) {n : Nat} {xs : List α} (h : xs.length = n) :
    fixedArray zero n xs = xs := by
  simp [fixedArray, h]

theorem lies_uint16s {p : Nat → UInt8} {off : Nat} {cs : List UInt16}
    (h : Lies p off (cs.flatMap fun c => leBytes 2 c.toNat)) {i : Nat} (hi : i < cs.length) :
    UInt16.ofNat (readNat p (off + 2 * i) 2) = cs[i] := by
  induction cs generalizing off i with
  | nil => simp at hi
  | cons c cs ih =>
    rw [List.flatMap_cons, lies_append, leBytes_length] at h
    cases i with
    | zero => exact h.1.uint16
    | succ i =>
      have hrest := ih h.2 (show i < cs.length by simpa using hi)
      rw [List.getElem_cons_succ, ← hrest, show off + 2 * (i + 1) = off + 2 + 2 * i by omega]

theorem KndConnPayload.read_of_lies {p : Nat → UInt8} {cp : KndConnPayload} (hcp : cp.Valid)
    (h : Lies p 0 cp.bytes) : KndConnPayload.read p = cp := by
  simp only [KndConnPayload.bytes, fixedArray_of_length _ hcp.localAddr,
    fixedArray_of_length _ hcp.remoteAddr, lies_append, leBytes_length, List.length_append,
    lies_cons, List.length_cons, List.length_nil, hcp.localAddr, hcp.remoteAddr] at h
  obtain ⟨⟨⟨⟨⟨⟨⟨⟨⟨⟨⟨hid, hpid⟩, hproto, hversion, hdir, -⟩, hlport⟩, hrport⟩, hladdr⟩, hraddr⟩,
    hin⟩, hout⟩, hchars⟩, -⟩, -⟩ := h.1
  have hladdr' := hladdr.readBytes_eq (Nat.le_of_eq hcp.localAddr.symm)
  have hraddr' := hraddr.readBytes_eq (Nat.le_of_eq hcp.remoteAddr.symm)
  rw [List.take_of_length_le (Nat.le_of_eq hcp.localAddr)] at hladdr'
  rw [List.take_of_length_le (Nat.le_of_eq hcp.remoteAddr)] at hraddr'
  have hpath : (List.range (readNat p 72 2)).map
      (fun i => UInt16.ofNat (readNat p (80 + 2 * i) 2)) = cp.processPath := by
    rw [hchars.readNat_eq_of_lt cp.processPathChars.toNat_lt, hcp.chars]
    refine List.ext_getElem (by simp) fun i hi hi' => ?_
    have hall := lies_uint16s h.2 (i := i) (by
      have := hcp.path
      rw [fixedArray_length]
      omega)
    rw [List.getElem_map, List.getElem_range]
    refine hall.trans ?_
    have htake : i < (cp.processPath.take kndProcPathChars).length := by
      have := hcp.path
      rw [List.length_take]
      omega
    simp only [fixedArray]
    rw [List.getElem_append_left htake, List.getElem_take]
  obtain ⟨⟩ := cp
  simp_all [KndConnPayload.read, hid.uint64, hpid.uint64, hlport.uint16, hrport.uint16, hin.uint64,
    hout.uint64, hchars.uint16]

end NetDebugger
