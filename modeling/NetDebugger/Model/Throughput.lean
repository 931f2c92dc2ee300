import NetDebugger.Lib.Meter
import NetDebugger.Lib.Runs
import NetDebugger.Proxy

/-! The throughput samples of `DrawStats`.  A sample is the growth of the model's totals since the
sample before it; the totals are the model's, which a clear resets, and the baseline is the
interface's, which it leaves. -/

namespace NetDebugger

open Lib

/-- What the samples do with floating point, where `τ` is ImGui's time and `φ` a rate. -/
structure Floats (τ φ : Type) where
  /-- `0.0` -/
  start : τ
  /-- `now - lastThruTs >= 0.25` -/
  due : τ → τ → Bool
  /-- `(float)((double)delta / dt)`, where `dt` is from `now` and `lastThruTs` -/
  rate : UInt64 → τ → τ → φ
  /-- `0.0f` -/
  zero : φ

/-- The throughput history of `AppState`. -/
structure AppState (τ φ : Type) where
  thru : List φ
  thruB : List φ
  thruHead : Nat
  lastThruTs : τ
  lastRecCount : UInt64
  lastByteCount : UInt64

/-- The interface and the model. -/
structure Meters (τ φ : Type) where
  model : KndModel
  st : AppState τ φ

/-- A statistics frame is one in which the window is not collapsed. -/
inductive StatsEvent (τ : Type)
  | ingest (p : Nat → UInt8) (now : Nat)
  | clear
  | drawStats (now : τ)

def KndModelStats.bytes (m : KndModelStats) : UInt64 := m.outBytes + m.inBytes

section

variable {τ φ : Type} (F : Floats τ φ)

def AppState.init : AppState τ φ where
  thru := List.replicate 120 F.zero
  thruB := List.replicate 120 F.zero
  thruHead := 0
  lastThruTs := F.start
  lastRecCount := 0
  lastByteCount := 0

/-- The part of `DrawStats` that samples. -/
def drawStats (m : KndModelStats) (st : AppState τ φ) (now : τ) : AppState τ φ :=
  if F.due now st.lastThruTs then
    let cur := m.totalRecords
    let curB := m.outBytes + m.inBytes
    { thru := st.thru.set st.thruHead (F.rate (cur - st.lastRecCount) now st.lastThruTs)
      thruB := st.thruB.set st.thruHead (F.rate (curB - st.lastByteCount) now st.lastThruTs)
      thruHead := (st.thruHead + 1) % 120
      lastThruTs := now
      lastRecCount := cur
      lastByteCount := curB }
  else st

variable (utf16ToUtf8 : List UInt16 → List UInt8)

def Meters.init (payloadCap packetCap : Nat) : Meters τ φ :=
  ⟨KndModel.empty payloadCap packetCap, AppState.init F⟩

def Meters.step (x : Meters τ φ) : StatsEvent τ → Option (Meters τ φ)
  | .ingest p now => some { x with model := x.model.ingest utf16ToUtf8 p now }
  | .clear => some { x with model := x.model.clear }
  | .drawStats now => some { x with st := drawStats F x.model.stats x.st now }

end

/-! ### What was ingested -/

/-- The length that a data record states. -/
def statedLength (p : Nat → UInt8) : Nat :=
  if (KndRecord.read p).type = kndRecData then
    (KndDataPayload.read fun i => p (sizeofKndRecord + i)).dataLength.toNat
  else 0

/-- The records and bytes ingested since the last sample or a clear behind it. -/
structure Ingested where
  records : Nat
  bytes : Nat
  cleared : Bool

def Ingested.start : Ingested := ⟨0, 0, false⟩

section

variable {τ φ : Type} (F : Floats τ φ) (utf16ToUtf8 : List UInt16 → List UInt8)

def Ingested.after (n : Ingested) (x : Meters τ φ) : StatsEvent τ → Ingested
  | .ingest p _ => { n with records := n.records + 1, bytes := n.bytes + statedLength p }
  | .clear => ⟨0, 0, true⟩
  | .drawStats now => if F.due now x.st.lastThruTs then .start else n

/-- The system beside what was ingested. -/
def metered : Meters τ φ × Ingested → StatsEvent τ → Option (Meters τ φ × Ingested) :=
  withHistory (Meters.step F utf16ToUtf8) (Ingested.after F)

/-- In a frame that samples, the differences are what was ingested. -/
def SamplesRight (x : Meters τ φ × Ingested) : StatsEvent τ → Prop
  | .drawStats now => F.due now x.1.st.lastThruTs = true →
    Delta x.1.st.lastRecCount x.1.model.stats.totalRecords x.2.records ∧
      Delta x.1.st.lastByteCount x.1.model.stats.bytes x.2.bytes
  | _ => True

/-- In a frame that samples, no clear has left a baseline above zero behind, and the totals have not
come round to it. -/
def BaselineReached (x : Meters τ φ × Ingested) : StatsEvent τ → Prop
  | .drawStats now => F.due now x.1.st.lastThruTs = true →
    Ahead x.1.st.lastRecCount x.2.cleared x.2.records ∧
      Ahead x.1.st.lastByteCount x.2.cleared x.2.bytes
  | _ => True

/-! ### Steps -/

theorem KndModel.ingest_totals (m : KndModel) (p : Nat → UInt8) (now : Nat) :
    (m.ingest utf16ToUtf8 p now).stats.totalRecords = m.stats.totalRecords + 1 ∧
      (m.ingest utf16ToUtf8 p now).stats.bytes =
        m.stats.bytes + UInt64.ofNat (statedLength p) := by
  have hopen : ¬kndRecConnOpen = kndRecData := by decide
  have hclose : ¬kndRecConnClose = kndRecConnOpen ∧ ¬kndRecConnClose = kndRecData := by decide
  have hdata : ¬kndRecData = kndRecConnOpen ∧ ¬kndRecData = kndRecConnClose := by decide
  by_cases htype : (KndRecord.read p).type = kndRecConnOpen
  · simp [KndModel.ingest, KndModelStats.bytes, statedLength, htype, hopen]
  by_cases htype' : (KndRecord.read p).type = kndRecConnClose
  · simp [KndModel.ingest, KndModelStats.bytes, statedLength, htype', hclose]
  by_cases htype'' : (KndRecord.read p).type = kndRecData
  · generalize hdp : KndDataPayload.read (fun i => p (sizeofKndRecord + i)) = dp
    have hlength : statedLength p = dp.dataLength.toNat := by
      rw [statedLength, if_pos htype'', hdp]
    rw [hlength, UInt64.ofNat_uInt32ToNat]
    cases hd : Dir.of dp.direction with
    | outbound =>
      have hswap : ∀ a b c : UInt64, a + b + c = a + c + b := fun a b c => by
        rw [UInt64.add_assoc, UInt64.add_comm b c, UInt64.add_assoc]
      simp [KndModel.ingest, KndModelStats.bytes, htype'', hdata, hdp, hd, hswap]
    | inbound =>
      simp [KndModel.ingest, KndModelStats.bytes, htype'', hdata, hdp, hd, UInt64.add_assoc]
  · simp [KndModel.ingest, KndModelStats.bytes, statedLength, htype, htype', htype'']

/-- The totals have grown from the baseline by what was ingested. -/
structure Counted (x : Meters τ φ × Ingested) : Prop where
  records : Metered x.1.st.lastRecCount x.1.model.stats.totalRecords x.2.cleared x.2.records
  bytes : Metered x.1.st.lastByteCount x.1.model.stats.bytes x.2.cleared x.2.bytes

theorem counted_init (payloadCap packetCap : Nat) :
    Counted (Meters.init F payloadCap packetCap, Ingested.start) :=
  ⟨Metered.marked 0, Metered.marked 0⟩

theorem step_counted {x y : Meters τ φ × Ingested} {e : StatsEvent τ} (h : Counted x)
    (hstep : metered F utf16ToUtf8 x e = some y) : Counted y := by
  obtain ⟨z, hz, rfl⟩ := Option.map_eq_some_iff.mp hstep
  cases e with
  | ingest p now =>
    obtain rfl := Option.some.inj hz
    obtain ⟨hrecords, hbytes⟩ := x.1.model.ingest_totals utf16ToUtf8 p now
    constructor
    case records =>
      show Metered _ (x.1.model.ingest utf16ToUtf8 p now).stats.totalRecords _ _
      rw [hrecords]
      exact h.records.add 1
    case bytes =>
      show Metered _ (x.1.model.ingest utf16ToUtf8 p now).stats.bytes _ _
      rw [hbytes]
      exact h.bytes.add (statedLength p)
  | clear =>
    obtain rfl := Option.some.inj hz
    exact ⟨Metered.cleared _, Metered.cleared _⟩
  | drawStats now =>
    obtain rfl := Option.some.inj hz
    by_cases hdue : F.due now x.1.st.lastThruTs = true
    · simp only [Ingested.after, drawStats, hdue, if_true]
      exact ⟨Metered.marked _, Metered.marked _⟩
    · simp only [Ingested.after, drawStats, hdue, Bool.false_eq_true, if_false]
      exact h

/-- A sample is right exactly where it has reached the baseline. -/
theorem samplesRight_iff {x : Meters τ φ × Ingested} (h : Counted x) (e : StatsEvent τ) :
    SamplesRight F x e ↔ BaselineReached F x e := by
  cases e with
  | drawStats now =>
    apply imp_congr_right
    intro _
    exact and_congr h.records.delta_iff h.bytes.delta_iff
  | _ => exact Iff.rfl

end

/-- Over every sequence of records, clears and statistics frames: every sample is what was ingested
since the one before it or since a clear in between exactly where each has reached its baseline. -/
theorem throughput_iff {τ φ : Type} (F : Floats τ φ) (utf16ToUtf8 : List UInt16 → List UInt8)
    (payloadCap packetCap : Nat) (es : List (StatsEvent τ)) :
    (∀ pre e x, pre ++ [e] <+: es →
      runEvents (metered F utf16ToUtf8) (Meters.init F payloadCap packetCap, .start) pre = some x →
      SamplesRight F x e) ↔
    EachStep (metered F utf16ToUtf8) (BaselineReached F)
      (Meters.init F payloadCap packetCap, .start) es := by
  rw [← eachStep_iff]
  have hstep : ∀ x e y, Counted x → metered F utf16ToUtf8 x e = some y → Counted y :=
    fun x e y hx hy => step_counted F utf16ToUtf8 hx hy
  have hiff : ∀ x e, Counted x → (SamplesRight F x e ↔ BaselineReached F x e) :=
    fun x e hx => samplesRight_iff F hx e
  exact eachStep_congr Counted hstep hiff (counted_init F payloadCap packetCap) es

/-! ### A sample behind a clear -/

/-- Times in milliseconds, and the difference in the place of a rate. -/
def milliseconds : Floats Nat UInt64 where
  start := 0
  due now last := 250 ≤ now - last
  rate delta _ _ := delta
  zero := 0

/-- A record is ingested and sampled, and the model is cleared. -/
def clearedSample : List (StatsEvent Nat) :=
  [.ingest (pointer (Proxy.buildData 5 kndDirOutbound [1, 2, 3] 0)) 0, .drawStats 250, .clear]

/-- The next sample is the difference of nothing and one record. -/
theorem throughput_wraps : ¬∀ (τ φ : Type) (F : Floats τ φ) (utf16ToUtf8 : List UInt16 → List UInt8)
    (payloadCap packetCap : Nat) (es pre : List (StatsEvent τ)) (e : StatsEvent τ)
    (x : Meters τ φ × Ingested), pre ++ [e] <+: es →
    runEvents (metered F utf16ToUtf8) (Meters.init F payloadCap packetCap, .start) pre = some x →
    SamplesRight F x e := by
  intro hall
  have htotal : ∀ x e, ∃ y, metered milliseconds (fun _ => []) x e = some y := by
    intro x e
    cases e <;> exact ⟨_, rfl⟩
  obtain ⟨x, hx⟩ := runEvents_total htotal (Meters.init milliseconds 1024 16, .start) clearedSample
  have hread : (runEvents (metered milliseconds fun _ => [])
      (Meters.init milliseconds 1024 16, .start) clearedSample).map (fun x =>
        (x.1.st.lastThruTs, x.1.st.lastRecCount, x.1.model.stats.totalRecords)) =
      some (250, 1, 0) := by
    decide +kernel
  rw [hx, Option.map_some] at hread
  obtain ⟨hlast, hbase, hcount⟩ : _ ∧ _ ∧ _ := by simpa using hread
  have hright := hall Nat UInt64 milliseconds (fun _ => []) 1024 16 _ clearedSample (.drawStats 500) x
    (List.prefix_refl _) hx
  have hdue : milliseconds.due 500 x.1.st.lastThruTs = true := by
    rw [hlast]
    rfl
  have hle := (hright hdue).1.1
  rw [hbase, hcount] at hle
  exact absurd hle (by decide)

end NetDebugger
