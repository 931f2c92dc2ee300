import NetDebugger.Ring.Invariant

/-! The callouts of `wfp.c` as sources of `KndRingWrite` calls: one CONN_OPEN per established flow,
one DATA call per chunk of a stream indication, one CONN_CLOSE per deleted flow. -/

namespace NetDebugger.Capture

open Lib NetDebugger.Ring

def kndStreamCopyMax : Nat := 256 * 1024

/-- The addresses of an established flow. WFP gives IPv4 in host order and IPv6 by pointer. -/
inductive FlowAddrs
  | v4 (localAddr remoteAddr : UInt32)
  | v6 (localAddr remoteAddr : Option (List UInt8))

/-- What `KndClassifyFlow` reads: fixed values, and metadata where it is present. -/
structure FlowFields where
  addrs : FlowAddrs
  localPort : UInt16
  remotePort : UInt16
  protocol : UInt8
  inbound : Bool
  flowHandle : Option UInt64
  processId : Option UInt64
  processPath : Option (List UInt16)

def FlowAddrs.ipVersion : FlowAddrs → UInt8
  | .v4 .. => kndIPv4
  | .v6 .. => kndIPv6

def FlowAddrs.localBytes : FlowAddrs → List UInt8
  | .v4 la _ => fixedArray 0 16 (octets la)
  | .v6 la _ => fixedArray 0 16 (la.getD [])

def FlowAddrs.remoteBytes : FlowAddrs → List UInt8
  | .v4 _ ra => fixedArray 0 16 (octets ra)
  | .v6 _ ra => fixedArray 0 16 (ra.getD [])

/-- `KndFillProcessInfo`: the path is cut to leave room for a NUL. -/
def FlowFields.path (f : FlowFields) : List UInt16 :=
  (f.processPath.getD []).take (kndProcPathChars - 1)

/-- The payload that `KndClassifyFlow` fills in. `next` is what `KndNextFlowId` would return. -/
def openPayload (f : FlowFields) (next : UInt64) : KndConnPayload where
  flowId := f.flowHandle.getD next
  processId := f.processId.getD 0
  protocol := f.protocol
  ipVersion := f.addrs.ipVersion
  direction := if f.inbound then kndDirInbound else kndDirOutbound
  localPort := f.localPort
  remotePort := f.remotePort
  localAddr := f.addrs.localBytes
  remoteAddr := f.addrs.remoteBytes
  bytesIn := 0
  bytesOut := 0
  processPathChars := UInt16.ofNat f.path.length
  processPath := f.path

/-- The zeroed payload of `KndFlowDelete`. -/
def closePayload (flowId : UInt64) : KndConnPayload where
  flowId := flowId
  processId := 0
  protocol := 0
  ipVersion := 0
  direction := 0
  localPort := 0
  remotePort := 0
  localAddr := List.replicate 16 0
  remoteAddr := List.replicate 16 0
  bytesIn := 0
  bytesOut := 0
  processPathChars := 0
  processPath := []

def connCall (type : UInt16) (p : KndConnPayload) (timestamp : UInt64) : WriteCall where
  type := type
  flags := 0
  payload := .bytes p.bytes
  data := .null 0
  timestamp := timestamp

def dataPayload (flowId : UInt64) (dir : UInt8) (chunk : List UInt8) : KndDataPayload where
  flowId := flowId
  direction := dir
  dataKind := kndDataCiphertext
  dataLength := UInt32.ofNat chunk.length

def dataCall (flowId : UInt64) (dir : UInt8) (flags : UInt16) (chunk : List UInt8)
    (timestamp : UInt64) : WriteCall where
  type := kndRecData
  flags := flags
  payload := .bytes (dataPayload flowId dir chunk).bytes
  data := .bytes chunk
  timestamp := timestamp

/-- The chunks of the loop of `KndClassifyStream` from `off` on. -/
def chunkLoop (scratch : List UInt8) : Nat → Nat → List (List UInt8)
  | 0, _ => []
  | fuel + 1, off =>
    if off < scratch.length then
      let chunk := min (scratch.length - off) kndMaxDataChunk
      (scratch.drop off).take chunk :: chunkLoop scratch fuel (off + chunk)
    else []

/-- A stream indication whose data is copied without failure. -/
structure Indication where
  receive : Bool
  flowContext : UInt64
  flowHandle : Option UInt64
  data : List UInt8
deriving DecidableEq

def Indication.direction (i : Indication) : UInt8 :=
  if i.receive then kndDirInbound else kndDirOutbound

/-- The associated context, or else the flow handle of the metadata. -/
def Indication.flowId (i : Indication) : UInt64 :=
  if i.flowContext ≠ 0 then i.flowContext else i.flowHandle.getD 0

/-- What is copied to the scratch buffer. -/
def Indication.scratch (i : Indication) : List UInt8 := i.data.take kndStreamCopyMax

/-- Bit 0 marks a truncated indication. -/
def Indication.flags (i : Indication) : UInt16 := if i.data.length > kndStreamCopyMax then 1 else 0

/-- The chunks that `KndClassifyStream` writes, with capture on and the scratch buffer allocated. -/
def kndClassifyStream (i : Indication) : List (List UInt8) :=
  chunkLoop i.scratch i.scratch.length 0

/-! ### Lemmas -/

theorem chunkLoop_flatten (scratch : List UInt8) {fuel off : Nat} (h : scratch.length ≤ fuel + off) :
    (chunkLoop scratch fuel off).flatten = scratch.drop off := by
  induction fuel generalizing off with
  | zero => simp [chunkLoop, List.drop_eq_nil_of_le (show scratch.length ≤ off by omega)]
  | succ fuel ih =>
    rw [chunkLoop]
    by_cases hoff : off < scratch.length
    · have hpos : 0 < kndMaxDataChunk := by decide
      rw [if_pos hoff, List.flatten_cons, ih (by omega), ← List.drop_drop, List.take_append_drop]
    · rw [if_neg hoff, List.drop_eq_nil_of_le (by omega)]
      rfl

theorem mem_chunkLoop {scratch chunk : List UInt8} {fuel off : Nat}
    (h : chunk ∈ chunkLoop scratch fuel off) :
    0 < chunk.length ∧ chunk.length ≤ kndMaxDataChunk := by
  have hpos : 0 < kndMaxDataChunk := by decide
  induction fuel generalizing off with
  | zero => simp [chunkLoop] at h
  | succ fuel ih =>
    rw [chunkLoop] at h
    by_cases hoff : off < scratch.length
    · rw [if_pos hoff] at h
      rcases List.mem_cons.mp h with rfl | h
      · rw [List.length_take, List.length_drop]
        omega
      · exact ih h
    · simp [hoff] at h

/-- The chunks of an indication are what was copied of it, cut at most every 64 KiB. -/
theorem kndClassifyStream_flatten (i : Indication) :
    (kndClassifyStream i).flatten = i.data.take kndStreamCopyMax := by
  rw [kndClassifyStream, chunkLoop_flatten _ (Nat.le_add_right ..), List.drop_zero]
  rfl

/-- Full chunks, and behind them what is left. -/
theorem chunkLoop_cut {pre last : List UInt8} {cs : List (List UInt8)}
    (h : ∀ c ∈ cs, c.length = kndMaxDataChunk) (hpos : 0 < last.length)
    (hlast : last.length ≤ kndMaxDataChunk) {fuel : Nat} (hfuel : cs.length < fuel) :
    chunkLoop (pre ++ (cs.flatten ++ last)) fuel pre.length = cs ++ [last] := by
  induction cs generalizing pre fuel with
  | nil =>
    obtain ⟨fuel, rfl⟩ := Nat.exists_eq_add_of_le' (Nat.succ_le_of_lt hfuel)
    have hend : chunkLoop (pre ++ last) fuel (pre.length + last.length) = [] := by
      cases fuel <;> simp [chunkLoop]
    have hlen : (pre ++ last).length = pre.length + last.length := List.length_append
    rw [List.flatten_nil, List.nil_append, List.length_nil, chunkLoop, if_pos (by omega), hlen,
      Nat.add_sub_cancel_left, Nat.min_eq_left hlast]
    dsimp only
    rw [hend, List.drop_left, List.take_length]
    rfl
  | cons c cs ih =>
    obtain ⟨hc, hcs⟩ := List.forall_mem_cons.mp h
    obtain ⟨fuel, rfl⟩ := Nat.exists_eq_add_of_le' (Nat.succ_le_of_lt (Nat.zero_lt_of_lt hfuel))
    have hmore : 0 < kndMaxDataChunk := by decide
    have hrest := @ih (pre ++ c) hcs fuel (Nat.lt_of_succ_lt_succ hfuel)
    rw [List.append_assoc, List.length_append, hc] at hrest
    have hsplit : (c :: cs).flatten ++ last = c ++ (cs.flatten ++ last) := by
      rw [List.flatten_cons, List.append_assoc]
    have hlen : (pre ++ (c ++ (cs.flatten ++ last))).length - pre.length =
        kndMaxDataChunk + (cs.flatten ++ last).length := by
      rw [List.length_append, Nat.add_sub_cancel_left, List.length_append, hc]
    rw [hsplit, chunkLoop, if_pos (by omega), hlen, Nat.min_eq_right (Nat.le_add_right ..)]
    dsimp only
    rw [hrest, List.drop_left, ← hc, List.take_left]
    rfl

theorem kndClassifyStream_cut {i : Indication} {cs : List (List UInt8)} {last : List UInt8}
    (h : ∀ c ∈ cs, c.length = kndMaxDataChunk) (hpos : 0 < last.length)
    (hlast : last.length ≤ kndMaxDataChunk) (hdata : i.data = cs.flatten ++ last)
    (hsmall : i.data.length ≤ kndStreamCopyMax) :
    kndClassifyStream i = cs ++ [last] ∧ i.flags = 0 := by
  have hscratch : i.scratch = cs.flatten ++ last := by
    rw [Indication.scratch, List.take_of_length_le hsmall, hdata]
  have hfuel : cs.length < (cs.flatten ++ last).length := by
    have hcount : cs.length ≤ cs.flatten.length := by
      clear hdata hscratch
      induction cs with
      | nil => exact Nat.le_refl _
      | cons c cs ih =>
        obtain ⟨hc, hcs⟩ := List.forall_mem_cons.mp h
        have hmore : 0 < kndMaxDataChunk := by decide
        have hrest := ih hcs
        rw [List.flatten_cons, List.length_append, hc, List.length_cons]
        omega
    rw [List.length_append]
    omega
  refine ⟨?_, if_neg (Nat.not_lt.mpr hsmall)⟩
  rw [kndClassifyStream, hscratch]
  exact @chunkLoop_cut [] last cs h hpos hlast _ hfuel

theorem dataCall_legal {flowId : UInt64} {dir : UInt8} {flags : UInt16} {chunk : List UInt8}
    {timestamp : UInt64} (h : chunk.length ≤ kndMaxDataChunk) :
    (dataCall flowId dir flags chunk timestamp).Legal := by
  refine ⟨⟨Buffer.present_bytes _, Buffer.present_bytes _, ?_⟩, .inr (.inr rfl)⟩
  have hmax : kndMaxDataChunk = 65536 := rfl
  simp only [dataCall, Buffer.len, KndDataPayload.bytes_length, sizeofKndRecord]
  omega

theorem connCall_legal {type : UInt16} (p : KndConnPayload) (timestamp : UInt64)
    (h : type = kndRecConnOpen ∨ type = kndRecConnClose) : (connCall type p timestamp).Legal := by
  refine ⟨⟨Buffer.present_bytes _, Buffer.present_null, ?_⟩, ?_⟩
  · simp [connCall, Buffer.len, sizeofKndRecord]
  · rcases h with h | h
    · exact .inl h
    · exact .inr (.inl h)

theorem openPayload_valid (f : FlowFields) (next : UInt64) : (openPayload f next).Valid := by
  have hpath : f.path.length ≤ 259 := by
    rw [FlowFields.path, List.length_take]
    exact Nat.min_le_left ..
  constructor
  case localAddr => cases h : f.addrs <;> simp [openPayload, FlowAddrs.localBytes, h]
  case remoteAddr => cases h : f.addrs <;> simp [openPayload, FlowAddrs.remoteBytes, h]
  case chars =>
    show (UInt16.ofNat f.path.length).toNat = f.path.length
    rw [UInt16.toNat_ofNat']
    exact Nat.mod_eq_of_lt (by omega)
  case path => exact Nat.le_trans hpath (by decide)

theorem closePayload_valid (flowId : UInt64) : (closePayload flowId).Valid := by
  constructor <;> simp [closePayload, kndProcPathChars]

/-- The connection payload of a delivered record. -/
theorem Carries.conn {a : Accepted} {bs : List UInt8} {type : UInt16} {p : KndConnPayload}
    {timestamp : UInt64} (h : Carries a bs) (hcall : a.call = connCall type p timestamp)
    (hp : p.Valid) :
    (KndRecord.read (pointer bs)).type = type ∧
      KndConnPayload.read (fun i => pointer bs (sizeofKndRecord + i)) = p := by
  have htype := h.type
  have hpayload := h.payload
  rw [hcall] at htype hpayload
  refine ⟨htype, KndConnPayload.read_of_lies hp ?_⟩
  have hlies : Lies (pointer bs) sizeofKndRecord p.bytes := hpayload
  exact hlies.congr fun i _ => by rw [Nat.zero_add]

/-- The data payload and the bytes of a delivered record. -/
theorem Carries.data_record {a : Accepted} {bs : List UInt8} {flowId : UInt64} {dir : UInt8}
    {flags : UInt16} {chunk : List UInt8} {timestamp : UInt64} (h : Carries a bs)
    (hcall : a.call = dataCall flowId dir flags chunk timestamp) :
    (KndRecord.read (pointer bs)).type = kndRecData ∧
      KndDataPayload.read (fun i => pointer bs (sizeofKndRecord + i)) =
        dataPayload flowId dir chunk ∧
      Lies (fun i => pointer bs (sizeofKndRecord + (sizeofKndDataPayload + i))) 0 chunk := by
  have htype := h.type
  have hpayload := h.payload
  have hdata := h.data
  rw [hcall] at htype hpayload hdata
  have hhead : Lies (pointer bs) sizeofKndRecord (dataPayload flowId dir chunk).bytes := hpayload
  have hbody : Lies (pointer bs) (sizeofKndRecord + sizeofKndDataPayload) chunk := by
    have hlen : (dataCall flowId dir flags chunk timestamp).payload.len = sizeofKndDataPayload :=
      KndDataPayload.bytes_length _
    rw [hlen] at hdata
    exact hdata
  refine ⟨htype, KndDataPayload.read_of_lies (hhead.congr fun i _ => by rw [Nat.zero_add]), ?_⟩
  exact hbody.congr fun i _ => by rw [Nat.zero_add, Nat.add_assoc]

end NetDebugger.Capture
