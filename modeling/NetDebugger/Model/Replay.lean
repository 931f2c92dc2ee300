import Mathlib.Data.UInt
import NetDebugger.Lib.Recent
import NetDebugger.Model

/-! The model as a function of what was ingested since it was last cleared: each flow is the
replay of its own records, and the packet log is the end of the log of all of them. -/

namespace NetDebugger

open Lib

/-- A record's memory and the time at which it is ingested. -/
abbrev Arrival := (Nat → UInt8) × Nat

/-- A call of the model. -/
inductive Call
  | ingest (p : Nat → UInt8) (now : Nat)
  | clear

/-- The records since the last clear. -/
def sinceClear (cs : List Call) : List Arrival :=
  cs.foldl (fun es c => match c with
    | .ingest p now => es ++ [(p, now)]
    | .clear => []) []

/-- The records of one flow. -/
def ownOf (id : UInt64) (es : List Arrival) : List Arrival :=
  es.filter fun e => recordFlow e.1 = some id

/-- The records that leave a packet: opens, closes and data. -/
def logged (es : List Arrival) : List Arrival := es.filter fun e => (recordFlow e.1).isSome

/-- The packet that `pushPacket` makes. -/
def KndPacket.of (no : UInt64) (rec' : KndRecord) (f : KndFlow) (dir : UInt8) (len : UInt32)
    (data : Nat → UInt8) : KndPacket where
  no := no
  ts := rec'.timestamp
  flowId := f.flowId
  type := rec'.type
  direction := dir
  length := len
  info := packetInfo rec' f dir len data
  preview := if rec'.type = kndRecConnOpen ∨ rec'.type = kndRecConnClose then []
    else readBytes data 0 (min len.toNat 64)

/-- The packet with number `no` of the record `p`, which left its flow as `f`. -/
def packetOf (no : UInt64) (f : KndFlow) (p : Nat → UInt8) : KndPacket :=
  let rec' := KndRecord.read p
  let body := fun i => p (sizeofKndRecord + i)
  if rec'.type = kndRecConnOpen then KndPacket.of no rec' f f.direction 0 body
  else if rec'.type = kndRecConnClose then KndPacket.of no rec' f 0 0 body
  else
    let dp := KndDataPayload.read body
    KndPacket.of no rec' f dp.direction dp.dataLength fun i => body (sizeofKndDataPayload + i)

/-- The totals of the data records agree with each other. -/
structure KndModelStats.Sums (s : KndModelStats) : Prop where
  length : s.sizeHist.length = 6
  classes : s.sizeHist.sum = s.dataRecords
  bytes : s.outBytes + s.inBytes = s.payloadBytes

section Replay

variable (utf16ToUtf8 : List UInt16 → List UInt8)

def KndModel.call (m : KndModel) : Call → KndModel
  | .ingest p now => m.ingest utf16ToUtf8 p now
  | .clear => m.clear

def KndModel.run (m : KndModel) (cs : List Call) : KndModel :=
  cs.foldl (KndModel.call utf16ToUtf8) m

/-- The entry of the flow after records that are all its own. -/
def replay (payloadCap : Nat) (id : UInt64) (es : List Arrival) : Option KndFlow :=
  es.foldl (fun f e =>
    some ((f.getD (KndFlow.new id e.2)).on utf16ToUtf8 payloadCap e.1 e.2)) none

/-- The packet of the record `e` that comes after `seen`. -/
def packetAfter (payloadCap : Nat) (seen : List Arrival) (e : Arrival) : Option KndPacket := do
  let id ← recordFlow e.1
  let f ← replay utf16ToUtf8 payloadCap id (ownOf id (seen ++ [e]))
  some (packetOf (UInt64.ofNat (logged seen).length + 1) f e.1)

/-- The packets of all the records `es` that come after `seen`. -/
def packetLog (payloadCap : Nat) : List Arrival → List Arrival → List KndPacket
  | _, [] => []
  | seen, e :: es =>
    (packetAfter utf16ToUtf8 payloadCap seen e).toList ++ packetLog payloadCap (seen ++ [e]) es

/-- The model after the records `es`. -/
structure Replayed (payloadCap packetCap : Nat) (m : KndModel) (es : List Arrival) : Prop where
  caps : m.payloadCap = payloadCap ∧ m.packetCap = packetCap
  wellFormed : m.WellFormed
  entries : ∀ id, m.find id = replay utf16ToUtf8 payloadCap id (ownOf id es)
  sums : m.stats.Sums
  packetNo : m.packetNo = UInt64.ofNat (logged es).length
  packets : m.packets = recent packetCap (packetLog utf16ToUtf8 payloadCap [] es)

/-- What the calls `cs` of a new model leave: an index that agrees with the flows, flows that
depend on their own records only, totals that add up, and the end of the packet log. -/
structure Isolated (payloadCap packetCap : Nat) (cs : List Call) : Prop where
  wellFormed : ((KndModel.empty payloadCap packetCap).run utf16ToUtf8 cs).WellFormed
  entries : ∀ id, ((KndModel.empty payloadCap packetCap).run utf16ToUtf8 cs).find id =
    replay utf16ToUtf8 payloadCap id (ownOf id (sinceClear cs))
  others : ∀ id, ((KndModel.empty payloadCap packetCap).run utf16ToUtf8 cs).find id =
    ((KndModel.empty payloadCap packetCap).run utf16ToUtf8
      ((ownOf id (sinceClear cs)).map fun e => .ingest e.1 e.2)).find id
  commute : ∀ (p q : Nat → UInt8) (now now' : Nat) (ds : List Call), recordFlow p ≠ recordFlow q →
    ∀ id, ((KndModel.empty payloadCap packetCap).run utf16ToUtf8
        (cs ++ [.ingest p now, .ingest q now'] ++ ds)).find id =
      ((KndModel.empty payloadCap packetCap).run utf16ToUtf8
        (cs ++ [.ingest q now', .ingest p now] ++ ds)).find id
  sums : ((KndModel.empty payloadCap packetCap).run utf16ToUtf8 cs).stats.Sums
  packets : ((KndModel.empty payloadCap packetCap).run utf16ToUtf8 cs).packets =
    recent packetCap (packetLog utf16ToUtf8 payloadCap [] (sinceClear cs))
  complete : (packetLog utf16ToUtf8 payloadCap [] (sinceClear cs)).length =
    (logged (sinceClear cs)).length
  numbered : ∀ (i : Nat) (x : KndPacket),
    (packetLog utf16ToUtf8 payloadCap [] (sinceClear cs))[i]? = some x →
      x.no = UInt64.ofNat (i + 1)

/-! ### The log -/

@[simp] theorem sinceClear_ingest (cs : List Call) (p : Nat → UInt8) (now : Nat) :
    sinceClear (cs ++ [.ingest p now]) = sinceClear cs ++ [(p, now)] := by
  simp [sinceClear]

@[simp] theorem sinceClear_clear (cs : List Call) : sinceClear (cs ++ [.clear]) = [] := by
  simp [sinceClear]

theorem ownOf_append (id : UInt64) (es fs : List Arrival) :
    ownOf id (es ++ fs) = ownOf id es ++ ownOf id fs := List.filter_append ..

theorem ownOf_ownOf (id : UInt64) (es : List Arrival) : ownOf id (ownOf id es) = ownOf id es := by
  simp [ownOf]

theorem logged_append (es fs : List Arrival) : logged (es ++ fs) = logged es ++ logged fs :=
  List.filter_append ..

@[simp] theorem ownOf_own {id : UInt64} {e : Arrival} (h : recordFlow e.1 = some id) :
    ownOf id [e] = [e] := by
  simp [ownOf, h]

@[simp] theorem ownOf_other {id : UInt64} {e : Arrival} (h : recordFlow e.1 ≠ some id) :
    ownOf id [e] = [] := by
  simp [ownOf, h]

theorem replay_snoc (payloadCap : Nat) (id : UInt64) (es : List Arrival) (e : Arrival) :
    replay utf16ToUtf8 payloadCap id (es ++ [e]) =
      some (((replay utf16ToUtf8 payloadCap id es).getD (KndFlow.new id e.2)).on utf16ToUtf8
        payloadCap e.1 e.2) := by
  simp [replay]

@[simp] theorem packetOf_no (no : UInt64) (f : KndFlow) (p : Nat → UInt8) :
    (packetOf no f p).no = no := by
  rw [packetOf]
  split
  · rfl
  · split <;> rfl

theorem packetLog_append (payloadCap : Nat) (seen es fs : List Arrival) :
    packetLog utf16ToUtf8 payloadCap seen (es ++ fs) =
      packetLog utf16ToUtf8 payloadCap seen es ++
        packetLog utf16ToUtf8 payloadCap (seen ++ es) fs := by
  induction es generalizing seen with
  | nil => simp [packetLog]
  | cons e es ih => simp [packetLog, ih]

theorem packetLog_snoc (payloadCap : Nat) (es : List Arrival) (e : Arrival) :
    packetLog utf16ToUtf8 payloadCap [] (es ++ [e]) =
      packetLog utf16ToUtf8 payloadCap [] es ++
        (packetAfter utf16ToUtf8 payloadCap es e).toList := by
  simp [packetLog_append, packetLog]

theorem packetAfter_of_flow (payloadCap : Nat) (seen : List Arrival) {e : Arrival} {id : UInt64}
    (h : recordFlow e.1 = some id) :
    packetAfter utf16ToUtf8 payloadCap seen e =
      some (packetOf (UInt64.ofNat (logged seen).length + 1)
        (((replay utf16ToUtf8 payloadCap id (ownOf id seen)).getD (KndFlow.new id e.2)).on
          utf16ToUtf8 payloadCap e.1 e.2) e.1) := by
  simp [packetAfter, h, ownOf_append, replay_snoc]

theorem packetAfter_of_other (payloadCap : Nat) (seen : List Arrival) {e : Arrival}
    (h : recordFlow e.1 = none) : packetAfter utf16ToUtf8 payloadCap seen e = none := by
  simp [packetAfter, h]

/-- Every logged record has its packet. -/
theorem length_packetLog (payloadCap : Nat) (es : List Arrival) :
    (packetLog utf16ToUtf8 payloadCap [] es).length = (logged es).length := by
  induction es using List.reverseRecOn with
  | nil => rfl
  | append_singleton es e ih =>
    rw [packetLog_snoc, logged_append, List.length_append, List.length_append, ih]
    cases hflow : recordFlow e.1 with
    | none => simp [packetAfter_of_other _ _ _ hflow, logged, hflow]
    | some id => simp [packetAfter_of_flow _ _ _ hflow, logged, hflow]

/-- Packets are numbered from one in order. -/
theorem packetLog_no (payloadCap : Nat) (es : List Arrival) {i : Nat} {x : KndPacket}
    (h : (packetLog utf16ToUtf8 payloadCap [] es)[i]? = some x) : x.no = UInt64.ofNat (i + 1) := by
  induction es using List.reverseRecOn with
  | nil => cases h
  | append_singleton es e ih =>
    rw [packetLog_snoc] at h
    by_cases hi : i < (packetLog utf16ToUtf8 payloadCap [] es).length
    · rw [List.getElem?_append_left hi] at h
      exact ih h
    · rw [List.getElem?_append_right (Nat.le_of_not_lt hi)] at h
      cases hflow : recordFlow e.1 with
      | none => simp [packetAfter_of_other _ _ _ hflow] at h
      | some id =>
        rw [packetAfter_of_flow _ _ _ hflow, Option.toList_some, List.getElem?_singleton] at h
        split at h
        · next hzero =>
          obtain rfl := Option.some.inj h
          rw [length_packetLog] at hi hzero
          rw [packetOf_no, show i = (logged es).length by omega, UInt64.ofNat_add]
          rfl
        · cases h

/-! ### One record -/

theorem KndModel.pushPacket_packets (m : KndModel) (rec' : KndRecord) (f : KndFlow) (dir : UInt8)
    (len : UInt32) (data : Nat → UInt8) :
    (m.pushPacket rec' f dir len data).packets =
      pushRecent m.packetCap m.packets (KndPacket.of (m.packetNo + 1) rec' f dir len data) := rfl

theorem KndModel.touch_packets {m : KndModel} (hm : m.WellFormed) (stats : KndModelStats)
    {k k' : UInt64} (hk : k' = k) (now : Nat) (g : KndFlow → KndFlow) (rec' : KndRecord)
    (dir : KndFlow → UInt8) (len : UInt32) (data : Nat → UInt8) :
    (KndModel.touch { m with stats } k' now g rec' dir len data).packets =
      pushRecent m.packetCap m.packets (KndPacket.of (m.packetNo + 1) rec'
        (g ((m.find k).getD (KndFlow.new k now)))
        (dir (g ((m.find k).getD (KndFlow.new k now)))) len data) := by
  subst hk
  obtain ⟨-, hindex, hfind⟩ := hm.ensure (show (KndFlow.new k' now).flowId = k' from rfl)
  have hentry := hfind k'
  rw [Indexed.find, hindex, Option.bind_some, if_pos rfl] at hentry
  simp only [KndModel.touch, KndModel.getOrCreate, KndModel.pushPacket_packets, hentry]
  rfl

/-- A record of a flow leaves one packet, with the flow as the record left it. -/
theorem KndModel.ingest_packets {m : KndModel} (hm : m.WellFormed) {p : Nat → UInt8} (now : Nat)
    {k : UInt64} (hk : recordFlow p = some k) :
    (m.ingest utf16ToUtf8 p now).packetNo = m.packetNo + 1 ∧
      (m.ingest utf16ToUtf8 p now).packets = pushRecent m.packetCap m.packets
        (packetOf (m.packetNo + 1)
          (((m.find k).getD (KndFlow.new k now)).on utf16ToUtf8 m.payloadCap p now) p) := by
  simp only [recordFlow] at hk
  simp only [KndModel.ingest, KndFlow.on, packetOf]
  by_cases hopen : (KndRecord.read p).type = kndRecConnOpen
  · simp only [if_pos hopen, if_pos (Or.inl hopen), Option.some.injEq] at hk ⊢
    refine ⟨rfl, ?_⟩
    rw [KndModel.touch_packets hm _ hk]
  by_cases hclose : (KndRecord.read p).type = kndRecConnClose
  · simp only [if_neg hopen, if_pos hclose, if_pos (Or.inr hclose), Option.some.injEq] at hk ⊢
    refine ⟨rfl, ?_⟩
    rw [KndModel.touch_packets hm _ hk]
  by_cases hdata : (KndRecord.read p).type = kndRecData
  · simp only [if_neg hopen, if_neg hclose, if_pos hdata, if_neg (not_or.mpr ⟨hopen, hclose⟩),
      Option.some.injEq] at hk ⊢
    refine ⟨rfl, ?_⟩
    rw [KndModel.touch_packets hm _ hk]
  · simp [hopen, hclose, hdata] at hk

theorem sizeClass_lt (len : Nat) : sizeClass len < 6 := by
  rw [sizeClass]
  split_ifs <;> decide

theorem KndModel.ingest_sums {m : KndModel} (hm : m.stats.Sums) (p : Nat → UInt8) (now : Nat) :
    (m.ingest utf16ToUtf8 p now).stats.Sums := by
  obtain ⟨hlength, hclasses, hbytes⟩ := hm
  simp only [KndModel.ingest]
  split
  · exact ⟨hlength, hclasses, hbytes⟩
  split
  · exact ⟨hlength, hclasses, hbytes⟩
  split
  · generalize KndDataPayload.read (fun i => p (sizeofKndRecord + i)) = dp
    constructor
    case length =>
      simp only [KndModel.touch_stats, List.length_modify]
      exact hlength
    case classes =>
      simp only [KndModel.touch_stats]
      rw [sum_modify_add _ (by rw [hlength]; exact sizeClass_lt _), hclasses]
    case bytes =>
      simp only [KndModel.touch_stats]
      split
      · rw [← hbytes, add_assoc]
      · rw [← hbytes, add_right_comm]
  · exact ⟨hlength, hclasses, hbytes⟩

@[simp] theorem KndModel.ingest_packetCap (m : KndModel) (p : Nat → UInt8) (now : Nat) :
    (m.ingest utf16ToUtf8 p now).packetCap = m.packetCap := (m.ingest_caps utf16ToUtf8 p now).2

variable {utf16ToUtf8} {payloadCap packetCap : Nat}

theorem replayed_empty (payloadCap packetCap : Nat) :
    Replayed utf16ToUtf8 payloadCap packetCap (KndModel.empty payloadCap packetCap) [] := by
  constructor
  case caps => exact ⟨rfl, rfl⟩
  case wellFormed => exact Indexed.wf_empty
  case entries => exact fun id => rfl
  case sums =>
    have hzero : KndModelStats.zero.Sums := ⟨rfl, by decide, by decide⟩
    exact hzero
  case packetNo => rfl
  case packets => exact (recent_nil _).symm

theorem Replayed.clear {m : KndModel} {es : List Arrival}
    (h : Replayed utf16ToUtf8 payloadCap packetCap m es) :
    Replayed utf16ToUtf8 payloadCap packetCap m.clear [] := by
  obtain ⟨rfl, rfl⟩ := h.caps
  exact replayed_empty m.payloadCap m.packetCap

theorem Replayed.ingest {m : KndModel} {es : List Arrival}
    (h : Replayed utf16ToUtf8 payloadCap packetCap m es) (p : Nat → UInt8) (now : Nat) :
    Replayed utf16ToUtf8 payloadCap packetCap (m.ingest utf16ToUtf8 p now) (es ++ [(p, now)]) := by
  have hcaps := h.caps
  cases hflow : recordFlow p with
  | none =>
    have harrival : recordFlow (p, now).1 = none := hflow
    have hcounts := m.ingest_other utf16ToUtf8 now hflow
    constructor
    case caps => simpa using hcaps
    case wellFormed =>
      rw [hcounts]
      exact h.wellFormed
    case entries =>
      intro id
      have hother : recordFlow (p, now).1 ≠ some id := by simp [hflow]
      rw [hcounts, ownOf_append, ownOf_other hother, List.append_nil]
      exact h.entries id
    case sums => exact m.ingest_sums utf16ToUtf8 h.sums p now
    case packetNo =>
      simp [hcounts, h.packetNo, logged, hflow]
    case packets =>
      simp [hcounts, h.packets, packetLog_snoc, packetAfter_of_other _ _ _ harrival]
  | some k =>
    have harrival : recordFlow (p, now).1 = some k := hflow
    obtain ⟨hno, hpackets⟩ := m.ingest_packets utf16ToUtf8 h.wellFormed now hflow
    obtain ⟨hwf, hown, hother⟩ := m.ingest_updated utf16ToUtf8 h.wellFormed now hflow
    rw [hcaps.1, h.entries k] at hown
    constructor
    case caps => simpa using hcaps
    case wellFormed => exact hwf
    case entries =>
      intro id
      rw [ownOf_append]
      by_cases hid : id = k
      · subst hid
        rw [hown, ownOf_own harrival, replay_snoc]
      · have hne : recordFlow (p, now).1 ≠ some id := by
          rw [harrival]
          exact fun heq => hid (Option.some.inj heq).symm
        rw [hother id hid, ownOf_other hne, List.append_nil]
        exact h.entries id
    case sums => exact m.ingest_sums utf16ToUtf8 h.sums p now
    case packetNo =>
      rw [hno, h.packetNo, logged_append, List.length_append, UInt64.ofNat_add]
      simp [logged, hflow]
    case packets =>
      rw [hpackets, h.packets, hcaps.1, hcaps.2, h.packetNo, h.entries k, packetLog_snoc,
        packetAfter_of_flow _ _ _ harrival, Option.toList_some, pushRecent_recent]

/-- The model is a function of what came since the last clear. -/
theorem replayed_run (payloadCap packetCap : Nat) (cs : List Call) :
    Replayed utf16ToUtf8 payloadCap packetCap
      ((KndModel.empty payloadCap packetCap).run utf16ToUtf8 cs) (sinceClear cs) := by
  induction cs using List.reverseRecOn with
  | nil => exact replayed_empty payloadCap packetCap
  | append_singleton cs c ih =>
    rw [KndModel.run, List.foldl_append]
    cases c with
    | ingest p now =>
      rw [sinceClear_ingest]
      exact ih.ingest p now
    | clear =>
      rw [sinceClear_clear]
      exact ih.clear

theorem ownOf_sinceClear_append {id : UInt64} {cs cs' : List Call}
    (h : ownOf id (sinceClear cs) = ownOf id (sinceClear cs')) (ds : List Call) :
    ownOf id (sinceClear (cs ++ ds)) = ownOf id (sinceClear (cs' ++ ds)) := by
  induction ds using List.reverseRecOn with
  | nil => simpa using h
  | append_singleton ds d ih =>
    rw [← List.append_assoc, ← List.append_assoc]
    cases d with
    | ingest p now => rw [sinceClear_ingest, sinceClear_ingest, ownOf_append, ownOf_append, ih]
    | clear => rw [sinceClear_clear, sinceClear_clear]

theorem sinceClear_map_ingest (es : List Arrival) :
    sinceClear (es.map fun e => .ingest e.1 e.2) = es := by
  induction es using List.reverseRecOn with
  | nil => rfl
  | append_singleton es e ih => rw [List.map_append, List.map_singleton, sinceClear_ingest, ih]

/-- Two records of different flows are the same to each flow in either order. -/
theorem ownOf_swap {e e' : Arrival} (h : recordFlow e.1 ≠ recordFlow e'.1) (id : UInt64) :
    ownOf id [e, e'] = ownOf id [e', e] := by
  by_cases he : recordFlow e.1 = some id
  · have he' : recordFlow e'.1 ≠ some id := fun heq => h (he.trans heq.symm)
    simp [ownOf, he, he']
  · have hskip : ∀ es, ownOf id (e :: es) = ownOf id es := fun es => by simp [ownOf, he]
    rw [hskip, ← List.singleton_append (l := [e]), ownOf_append, ownOf_other he, List.append_nil]

theorem model_isolated (utf16ToUtf8 : List UInt16 → List UInt8) (payloadCap packetCap : Nat)
    (cs : List Call) : Isolated utf16ToUtf8 payloadCap packetCap cs := by
  have hrun := @replayed_run utf16ToUtf8 payloadCap packetCap
  constructor
  case wellFormed => exact (hrun cs).wellFormed
  case entries => exact (hrun cs).entries
  case others =>
    intro id
    rw [(hrun cs).entries, (hrun _).entries, sinceClear_map_ingest, ownOf_ownOf]
  case commute =>
    intro p q now now' ds hne id
    have hswap := @ownOf_swap (p, now) (q, now') hne id
    rw [(hrun _).entries, (hrun _).entries]
    congr 1
    apply ownOf_sinceClear_append
    have hsnoc : ∀ e e' : Arrival,
        sinceClear (cs ++ [.ingest e.1 e.2, .ingest e'.1 e'.2]) = sinceClear cs ++ [e, e'] := by
      intro e e'
      simp [sinceClear]
    rw [hsnoc (p, now) (q, now'), hsnoc (q, now') (p, now), ownOf_append, ownOf_append,
      hswap]
  case sums => exact (hrun cs).sums
  case packets => exact (hrun cs).packets
  case complete => exact length_packetLog utf16ToUtf8 payloadCap _
  case numbered => exact fun i x h => packetLog_no utf16ToUtf8 payloadCap _ h

end Replay

end NetDebugger
