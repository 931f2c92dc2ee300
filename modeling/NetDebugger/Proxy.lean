import NetDebugger.Capture
import NetDebugger.Model.Records

/-! The records of `mitm_proxy.cpp`.  The proxy does not write to the ring: each record is a buffer
of its own, and the interface drains them into `KndModel::ingest`.  The conversion from UTF-8 is
Windows', and a parameter. -/

namespace NetDebugger.Proxy

open Lib NetDebugger.Ring

/-- The buffer that `handleConn` relays with. -/
def relaySize : Nat := 16384

/-- The header that all three builders fill in: no flags, and no sequence number. -/
def header (type : UInt16) (length : Nat) (timestamp : UInt64) : KndRecord where
  length := length % 2 ^ 32
  type := type
  flags := 0
  sequence := 0
  timestamp := timestamp

section

variable (utf8ToUtf16 : List UInt8 → List UInt16)

/-- The label of a flow of the proxy. Where it does not fit with its NUL, `MultiByteToWideChar`
fails and the count stays zero. -/
def label (host : List UInt8) : List UInt16 :=
  let wide := utf8ToUtf16 (cString (host ++ text " (MITM)"))
  if wide.length + 1 ≤ kndProcPathChars then wide else []

def openPayload (flow : UInt64) (host : List UInt8) (port : UInt16) : KndConnPayload where
  flowId := flow
  processId := 0
  protocol := kndProtoTcp
  ipVersion := kndIPv4
  direction := kndDirOutbound
  localPort := 0
  remotePort := port
  localAddr := List.replicate 16 0
  remoteAddr := List.replicate 16 0
  bytesIn := 0
  bytesOut := 0
  processPathChars := UInt16.ofNat (label utf8ToUtf16 host).length
  processPath := label utf8ToUtf16 host

def buildConnOpen (flow : UInt64) (host : List UInt8) (port : UInt16) (timestamp : UInt64) :
    List UInt8 :=
  (header kndRecConnOpen (sizeofKndRecord + sizeofKndConnPayload) timestamp).bytes ++
    (openPayload utf8ToUtf16 flow host port).bytes

end

def dataPayload (flow : UInt64) (dir : UInt8) (data : List UInt8) : KndDataPayload where
  flowId := flow
  direction := dir
  dataKind := kndDataPlaintext
  dataLength := UInt32.ofNat data.length

def buildData (flow : UInt64) (dir : UInt8) (data : List UInt8) (timestamp : UInt64) :
    List UInt8 :=
  (header kndRecData (sizeofKndRecord + sizeofKndDataPayload + data.length) timestamp).bytes ++
    (dataPayload flow dir data).bytes ++ data

/-- The rest of the buffer stays zero, as in `KndFlowDelete`. -/
def buildConnClose (flow timestamp : UInt64) : List UInt8 :=
  (header kndRecConnClose (sizeofKndRecord + sizeofKndConnPayload) timestamp).bytes ++
    (Capture.closePayload flow).bytes

/-! ### What the records mean -/

theorem openPayload_valid (utf8ToUtf16 : List UInt8 → List UInt16) (flow : UInt64)
    (host : List UInt8) (port : UInt16) : (openPayload utf8ToUtf16 flow host port).Valid := by
  have hlabel : (label utf8ToUtf16 host).length + 1 ≤ kndProcPathChars := by
    unfold label
    simp only
    split
    · assumption
    · decide
  have hmax : kndProcPathChars = 260 := rfl
  constructor
  case localAddr => simp [openPayload]
  case remoteAddr => simp [openPayload]
  case chars =>
    show (UInt16.ofNat (label utf8ToUtf16 host).length).toNat = _
    rw [UInt16.toNat_ofNat']
    exact Nat.mod_eq_of_lt (by omega)
  case path => exact Nat.le_of_succ_le hlabel

/-- A header in front of a record, read where the record lies. -/
theorem header_read (type : UInt16) (length : Nat) (timestamp : UInt64) (rest : List UInt8) :
    KndRecord.read (pointer ((header type length timestamp).bytes ++ rest)) =
      header type length timestamp := by
  have hlies := lies_pointer ((header type length timestamp).bytes ++ rest) []
  rw [List.append_nil, lies_append] at hlies
  exact KndRecord.read_of_lies (Nat.mod_lt _ (Nat.two_pow_pos 32)) (Nat.two_pow_pos 64) hlies.1

/-- The rest of a record lies behind its header. -/
theorem body_lies (type : UInt16) (length : Nat) (timestamp : UInt64) (rest : List UInt8) :
    Lies (fun i => pointer ((header type length timestamp).bytes ++ rest) (sizeofKndRecord + i)) 0
      rest := by
  have hlies := lies_pointer ((header type length timestamp).bytes ++ rest) []
  rw [List.append_nil, lies_append, KndRecord.bytes_length] at hlies
  exact hlies.2.congr fun i _ => by rw [Nat.zero_add, Nat.zero_add]; rfl

theorem buildConnOpen_at (utf8ToUtf16 : List UInt8 → List UInt16) (flow : UInt64)
    (host : List UInt8) (port : UInt16) (timestamp : UInt64) :
    (Record.opened (openPayload utf8ToUtf16 flow host port)).At
      (pointer (buildConnOpen utf8ToUtf16 flow host port timestamp)) := by
  refine ⟨congrArg KndRecord.type (header_read ..), ?_⟩
  exact KndConnPayload.read_of_lies (openPayload_valid ..) (body_lies ..)

theorem buildConnClose_at (flow timestamp : UInt64) :
    (Record.closed (Capture.closePayload flow)).At (pointer (buildConnClose flow timestamp)) := by
  refine ⟨congrArg KndRecord.type (header_read ..), ?_⟩
  exact KndConnPayload.read_of_lies (Capture.closePayload_valid flow) (body_lies ..)

theorem buildData_at (flow : UInt64) (dir : UInt8) {data : List UInt8} (timestamp : UInt64)
    (hlen : data.length ≤ relaySize) :
    (Record.data (dataPayload flow dir data) data).At
      (pointer (buildData flow dir data timestamp)) := by
  unfold buildData
  rw [List.append_assoc]
  have hbody := body_lies kndRecData (sizeofKndRecord + sizeofKndDataPayload + data.length)
    timestamp ((dataPayload flow dir data).bytes ++ data)
  rw [lies_append, KndDataPayload.bytes_length] at hbody
  refine ⟨congrArg KndRecord.type (header_read ..), KndDataPayload.read_of_lies hbody.1, ?_, ?_⟩
  · have hmax : relaySize = 16384 := rfl
    show (UInt32.ofNat data.length).toNat = data.length
    rw [UInt32.toNat_ofNat']
    exact Nat.mod_eq_of_lt (by omega)
  · exact hbody.2.congr fun i _ => by rw [Nat.zero_add, Nat.zero_add]; rfl

end NetDebugger.Proxy
