import NetDebugger.Lib.Frames
import NetDebugger.Model

/-! Records by their meaning, and what a sequence of them leaves in the model: payloads are the
capped concatenation of the flow's bytes, counters restart at the flow's last close. -/

namespace NetDebugger

open Lib

/-- The meaning of a record. -/
inductive Record
  | opened (cp : KndConnPayload)
  | closed (cp : KndConnPayload)
  | data (dp : KndDataPayload) (bytes : List UInt8)

/-- The record lies behind the pointer `p`. -/
def Record.At (p : Nat → UInt8) : Record → Prop
  | .opened cp => (KndRecord.read p).type = kndRecConnOpen ∧
      KndConnPayload.read (fun i => p (sizeofKndRecord + i)) = cp
  | .closed cp => (KndRecord.read p).type = kndRecConnClose ∧
      KndConnPayload.read (fun i => p (sizeofKndRecord + i)) = cp
  | .data dp bytes => (KndRecord.read p).type = kndRecData ∧
      KndDataPayload.read (fun i => p (sizeofKndRecord + i)) = dp ∧
      dp.dataLength.toNat = bytes.length ∧
      Lies (fun i => p (sizeofKndRecord + (sizeofKndDataPayload + i))) 0 bytes

def Record.flowId : Record → UInt64
  | .opened cp => cp.flowId
  | .closed cp => cp.flowId
  | .data dp _ => dp.flowId

/-- A flow in one direction. -/
abbrev Stream := UInt64 × Dir

/-- The bytes that the record carries for the stream. -/
def Record.bytesFor (k : Stream) : Record → List UInt8
  | .data dp bytes => if (dp.flowId, Dir.of dp.direction) = k then bytes else []
  | _ => []

def bytesOf (k : Stream) (rs : List Record) : List UInt8 := rs.flatMap (Record.bytesFor k)

def Record.Closes (f : UInt64) : Record → Prop
  | .closed cp => cp.flowId = f
  | _ => False

instance (f : UInt64) (r : Record) : Decidable (r.Closes f) := by
  cases r <;> unfold Record.Closes <;> infer_instance

/-- The records after the last close of the flow. -/
def sinceClose (f : UInt64) (rs : List Record) : List Record :=
  rs.foldl (fun acc r => if r.Closes f then [] else acc ++ [r]) []

/-- The records of the producers: closes have zero counters, and no data record is empty. -/
def Record.Produced : Record → Prop
  | .opened _ => True
  | .closed cp => cp.bytesIn = 0 ∧ cp.bytesOut = 0
  | .data _ bytes => 0 < bytes.length

def KndModel.flow (m : KndModel) (f : UInt64) : KndFlow := (m.find f).getD (KndFlow.new f 0)

def KndFlow.bytes (fl : KndFlow) : Dir → UInt64
  | .outbound => fl.bytesOut
  | .inbound => fl.bytesIn

/-! ### One record -/

@[simp] theorem bytesOf_snoc (k : Stream) (rs : List Record) (r : Record) :
    bytesOf k (rs ++ [r]) = bytesOf k rs ++ r.bytesFor k := by
  simp [bytesOf]

theorem sinceClose_snoc (f : UInt64) (rs : List Record) (r : Record) :
    sinceClose f (rs ++ [r]) = if r.Closes f then [] else sinceClose f rs ++ [r] := by
  simp [sinceClose]

theorem sinceClose_of_open {f : UInt64} {rs : List Record} (h : ∀ r ∈ rs, ¬r.Closes f) :
    sinceClose f rs = rs := by
  induction rs using List.reverseRecOn with
  | nil => rfl
  | append_singleton rs r ih =>
    rw [sinceClose_snoc, if_neg (h r (by simp)), ih fun s hs => h s (by simp [hs])]

theorem bytesFor_of_flow_ne {k : Stream} {r : Record} (h : r.flowId ≠ k.1) : r.bytesFor k = [] := by
  cases r with
  | opened cp => rfl
  | closed cp => rfl
  | data dp bytes =>
    refine if_neg fun heq => h ?_
    exact congrArg Prod.fst heq

theorem not_closes_of_flow_ne {f : UInt64} {r : Record} (h : r.flowId ≠ f) : ¬r.Closes f := by
  cases r with
  | opened cp => exact id
  | closed cp => exact h
  | data dp bytes => exact id

theorem recordFlow_of_at {p : Nat → UInt8} {r : Record} (h : r.At p) :
    recordFlow p = some r.flowId := by
  have hdata : ¬(kndRecData = kndRecConnOpen ∨ kndRecData = kndRecConnClose) := by decide
  cases r with
  | opened cp => simp [recordFlow, h.1, h.2, Record.flowId]
  | closed cp => simp [recordFlow, h.1, h.2, Record.flowId]
  | data dp bytes => simp [recordFlow, h.1, h.2.1, hdata, Record.flowId]

/-- What one record does to the fields of its flow. -/
structure OnRecord (cap : Nat) (r : Record) (f g : KndFlow) : Prop where
  payload : ∀ d xs, f.payload d = xs.take cap →
    g.payload d = (xs ++ r.bytesFor (r.flowId, d)).take cap
  truncated : r.Produced → ∀ d n, (f.payload d).length = min n cap →
    (f.truncated d = true ↔ cap < n) →
    (g.truncated d = true ↔ cap < n + (r.bytesFor (r.flowId, d)).length)
  closed : g.closed = true ↔ f.closed = true ∨ r.Closes r.flowId
  bytes : r.Produced → ∀ d, g.bytes d =
    if r.Closes r.flowId then 0
    else f.bytes d + UInt64.ofNat (r.bytesFor (r.flowId, d)).length

section Tracks

variable {utf16ToUtf8 : List UInt16 → List UInt8}

theorem KndFlow.onOpen_record (f : KndFlow) (cap : Nat) (rec' : KndRecord) (cp : KndConnPayload) :
    OnRecord cap (.opened cp) f (f.onOpen utf16ToUtf8 rec' cp) := by
  constructor
  case payload =>
    intro d xs h
    exact h.trans (by simp [Record.bytesFor])
  case truncated =>
    intro _ d n _ h
    exact h
  case closed => simp [KndFlow.onOpen, Record.Closes]
  case bytes =>
    intro _ d
    cases d <;> simp [KndFlow.onOpen, KndFlow.bytes, Record.Closes, Record.bytesFor]

theorem KndFlow.onClose_record (f : KndFlow) (cap : Nat) (rec' : KndRecord) (cp : KndConnPayload) :
    OnRecord cap (.closed cp) f (f.onClose rec' cp) := by
  constructor
  case payload =>
    intro d xs h
    exact h.trans (by simp [Record.bytesFor])
  case truncated =>
    intro _ d n _ h
    exact h
  case closed => simp [KndFlow.onClose, Record.Closes, Record.flowId]
  case bytes =>
    rintro ⟨hin, hout⟩ d
    cases d <;> simp [KndFlow.onClose, KndFlow.bytes, Record.Closes, Record.flowId, hin, hout]

theorem KndFlow.onData_record (f : KndFlow) (cap : Nat) (rec' : KndRecord) {dp : KndDataPayload}
    {bytes : List UInt8} {data : Nat → UInt8} (now : Nat) (hlen : dp.dataLength.toNat = bytes.length)
    (hdata : Lies data 0 bytes) :
    OnRecord cap (.data dp bytes) f (f.onData cap rec' dp data now) := by
  have hread : ∀ n, n ≤ bytes.length → readBytes data 0 n = bytes.take n := fun n hn =>
    hdata.readBytes_eq hn
  constructor
  case payload =>
    intro d xs h
    by_cases hd : Dir.of dp.direction = d
    · subst hd
      rw [← take_append_take h]
      simp only [KndFlow.onData, Function.update_self, Record.bytesFor, Record.flowId, if_true, hlen]
      rw [hread _ (Nat.min_le_left ..)]
    · simp only [KndFlow.onData, Function.update_of_ne (Ne.symm hd), Record.bytesFor, Record.flowId,
        Prod.mk.injEq, hd, and_false, if_false, List.append_nil]
      exact h
  case truncated =>
    intro hproduced d n hbuf h
    by_cases hd : Dir.of dp.direction = d
    · subst hd
      simp only [KndFlow.onData, Function.update_self, Record.bytesFor, Record.flowId, if_true, hlen]
      by_cases hroom : (f.payload (Dir.of dp.direction)).length < cap
      · rw [if_pos hroom, Bool.or_eq_true, h, decide_eq_true_eq]
        omega
      · rw [if_neg hroom]
        have hpos : 0 < bytes.length := hproduced
        simp only [true_iff]
        omega
    · simp only [KndFlow.onData, Function.update_of_ne (Ne.symm hd), Record.bytesFor, Record.flowId,
        Prod.mk.injEq, hd, and_false, if_false, List.length_nil, Nat.add_zero]
      exact h
  case closed => simp [KndFlow.onData, Record.Closes]
  case bytes =>
    intro _ d
    have hofNat : UInt64.ofNat bytes.length = dp.dataLength.toUInt64 := by
      rw [← hlen, ← UInt64.toNat_inj, UInt32.toNat_toUInt64, UInt64.toNat_ofNat']
      exact Nat.mod_eq_of_lt (by have := dp.dataLength.toNat_lt; omega)
    cases d <;> cases hd : Dir.of dp.direction <;>
      simp [KndFlow.onData, KndFlow.bytes, Record.Closes, Record.bytesFor, Record.flowId, hd, hofNat]

theorem KndFlow.on_record {p : Nat → UInt8} {r : Record} (h : r.At p) (f : KndFlow)
    (cap now : Nat) : OnRecord cap r f (f.on utf16ToUtf8 cap p now) := by
  have hclose : ¬kndRecConnClose = kndRecConnOpen := by decide
  have hdata : ¬kndRecData = kndRecConnOpen ∧ ¬kndRecData = kndRecConnClose := by decide
  cases r with
  | opened cp =>
    simp only [KndFlow.on, h.1, h.2, if_true]
    exact f.onOpen_record cap _ cp
  | closed cp =>
    simp only [KndFlow.on, h.1, h.2, hclose, if_true, if_false]
    exact f.onClose_record cap _ cp
  | data dp bytes =>
    simp only [KndFlow.on, h.1, h.2.1, hdata, if_true, if_false]
    exact f.onData_record cap _ now h.2.2.1 h.2.2.2

/-- The model after the records `rs`. -/
structure Tracks (cap : Nat) (m : KndModel) (rs : List Record) : Prop where
  wellFormed : m.WellFormed
  payloadCap : m.payloadCap = cap
  payload : ∀ f d, (m.flow f).payload d = (bytesOf (f, d) rs).take cap
  truncated : ∀ f d, (m.flow f).truncated d = true ↔ cap < (bytesOf (f, d) rs).length
  closed : ∀ f, (m.flow f).closed = true ↔ ∃ r ∈ rs, r.Closes f
  bytes : ∀ f d, (m.flow f).bytes d = UInt64.ofNat (bytesOf (f, d) (sinceClose f rs)).length

theorem tracks_empty (cap packetCap : Nat) : Tracks cap (KndModel.empty cap packetCap) [] := by
  constructor
  case wellFormed => exact Indexed.wf_empty
  case payloadCap => rfl
  case payload =>
    intro f d
    simp [bytesOf]
    rfl
  case truncated =>
    intro f d
    simp [bytesOf]
    rfl
  case closed =>
    intro f
    simp
    rfl
  case bytes =>
    intro f d
    cases d <;> rfl

theorem Tracks.ingest {cap : Nat} {m : KndModel} {rs : List Record} (h : Tracks cap m rs)
    {p : Nat → UInt8} {r : Record} (hr : r.At p) (hproduced : r.Produced) (now : Nat) :
    Tracks cap (m.ingest utf16ToUtf8 p now) (rs ++ [r]) := by
  obtain ⟨hwf, hown, hother⟩ := KndModel.ingest_updated utf16ToUtf8 h.wellFormed now
    (recordFlow_of_at hr)
  have hcap := h.payloadCap
  have hsame : ∀ f, r.flowId ≠ f → (m.ingest utf16ToUtf8 p now).flow f = m.flow f := by
    intro f hf
    rw [KndModel.flow, KndModel.flow, hother f (Ne.symm hf)]
  -- a new flow differs from the default only in its times
  have hrecord : OnRecord cap r (m.flow r.flowId) ((m.ingest utf16ToUtf8 p now).flow r.flowId) := by
    have hon := fun f => @KndFlow.on_record utf16ToUtf8 _ _ hr f cap now
    rw [KndModel.flow, KndModel.flow, hown, hcap]
    cases hfind : m.find r.flowId with
    | some f => exact hon f
    | none =>
      have hnew := hon (KndFlow.new r.flowId now)
      exact ⟨hnew.payload, hnew.truncated, hnew.closed, hnew.bytes⟩
  constructor
  case wellFormed => exact hwf
  case payloadCap => rw [KndModel.ingest_payloadCap, hcap]
  case payload =>
    intro f d
    rw [bytesOf_snoc]
    by_cases hf : r.flowId = f
    · subst hf
      exact hrecord.payload d _ (h.payload _ d)
    · rw [hsame f hf, bytesFor_of_flow_ne hf, List.append_nil]
      exact h.payload f d
  case truncated =>
    intro f d
    rw [bytesOf_snoc, List.length_append]
    by_cases hf : r.flowId = f
    · subst hf
      refine hrecord.truncated hproduced d _ ?_ (h.truncated _ d)
      rw [h.payload, List.length_take, Nat.min_comm]
    · rw [hsame f hf, bytesFor_of_flow_ne hf]
      exact h.truncated f d
  case closed =>
    intro f
    have hsnoc : (∃ s ∈ rs ++ [r], s.Closes f) ↔ (∃ s ∈ rs, s.Closes f) ∨ r.Closes f := by
      constructor
      · rintro ⟨s, hs, hclose⟩
        rcases List.mem_append.mp hs with hs | hs
        · exact .inl ⟨s, hs, hclose⟩
        · exact .inr (List.mem_singleton.mp hs ▸ hclose)
      · rintro (⟨s, hs, hclose⟩ | hclose)
        · exact ⟨s, List.mem_append_left _ hs, hclose⟩
        · exact ⟨r, List.mem_append_right _ (List.mem_singleton.mpr rfl), hclose⟩
    rw [hsnoc, ← h.closed f]
    by_cases hf : r.flowId = f
    · subst hf
      exact hrecord.closed
    · rw [hsame f hf, or_iff_left (not_closes_of_flow_ne hf)]
  case bytes =>
    intro f d
    rw [sinceClose_snoc]
    by_cases hf : r.flowId = f
    · subst hf
      rw [hrecord.bytes hproduced d, h.bytes]
      by_cases hclose : r.Closes r.flowId
      · rw [if_pos hclose, if_pos hclose]
        rfl
      · rw [if_neg hclose, if_neg hclose, bytesOf_snoc, List.length_append, UInt64.ofNat_add]
    · rw [hsame f hf, if_neg (not_closes_of_flow_ne hf), bytesOf_snoc, bytesFor_of_flow_ne hf,
        List.append_nil]
      exact h.bytes f d

end Tracks

end NetDebugger
