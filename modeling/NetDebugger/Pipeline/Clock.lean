import NetDebugger.Pipeline
import NetDebugger.Ring.Calls

/-! The times of the records.  Any number of callers of `KndRingWrite` check the size, read the clock
and take the lock in any order; the clock is read in front of the lock.  `accepted` is the order of the
ring, and the model gets its records in that order. -/

namespace NetDebugger.Pipeline

open Lib NetDebugger.Ring

/-- A caller of `KndRingWrite`: in front of the clock, or with its time and in front of the lock. -/
inductive Caller
  | called (c : WriteCall)
  | stamped (c : WriteCall)
  | done

/-- The callers, the system's clock, and the path from the ring to the model. -/
structure Timed where
  clock : UInt64
  callers : List Caller
  system : System
  model : KndModel

inductive Tick
  | tick (now : UInt64)
  | arrive (c : WriteCall)
  | stamp (i : Nat)
  | lock (i : Nat)
  | access (e : Ring.Event)
  | deliver (now : Nat)

namespace Timed

def initial (s : RingState) (clock : UInt64) (payloadCap packetCap : Nat) : Timed :=
  ⟨clock, [], System.initial s, KndModel.empty payloadCap packetCap⟩

/-- The caller takes the lock. Its record is dropped, or written from here on. -/
def acquire (y : Timed) (i : Nat) (c : WriteCall) : Option Timed :=
  (y.system.step (.call c)).map fun s => { y with system := s, callers := y.callers.set i .done }

section

variable (utf16ToUtf8 : List UInt16 → List UInt8)

def step (y : Timed) : Tick → Option Timed
  | .tick now => if y.clock ≤ now then some { y with clock := now } else none
  | .arrive c => some { y with callers := y.callers ++ [.called c] }
  | .stamp i =>
    match y.callers[i]? with
    | some (.called c) =>
      if c.recLen > y.system.ring.dataSize then none
      else some { y with callers := y.callers.set i (.stamped { c with timestamp := y.clock }) }
    | _ => none
  | .lock i =>
    match y.callers[i]? with
    | some (.called c) =>
      -- a record that the ring can never hold is dropped without a time
      if c.recLen > y.system.ring.dataSize then y.acquire i c else none
    | some (.stamped c) => y.acquire i c
    | _ => none
  | .access (.call _) => none
  | .access .deliver => none
  | .access e => (y.system.step e).map fun s => { y with system := s }
  | .deliver now =>
    match y.system.consumer with
    | .reading _ _ _ got => (y.system.step .deliver).map fun s =>
        { y with system := s, model := y.model.ingest utf16ToUtf8 (pointer got) now }
    | _ => none

end

/-- The calls whose records have their place in the ring, in its order. -/
def placed (y : Timed) : List WriteCall := y.system.accepted.map Accepted.call ++ inFlight y.system

/-- The order of the ring is the order of time, and the model follows it: no packet in the log is older
than one before it, and no record on its way is older than the last one of a flow. -/
structure Chronological (y : Timed) : Prop where
  sequence : y.system.accepted.Pairwise fun a b => a.sequence < b.sequence
  ring : y.placed.Pairwise fun c c' => c.timestamp ≤ c'.timestamp
  packets : y.model.packets.Pairwise fun p q => p.ts ≤ q.ts
  lastTs : ∀ f ∈ y.model.table.items,
    ∀ a ∈ y.system.accepted.drop y.system.delivered.length, f.lastTs ≤ a.call.timestamp

end Timed

/-- The calls are those of the driver's callouts. -/
def Tick.Legal : Tick → Prop
  | .arrive c => c.Legal
  | _ => True

/-! ### Times in the model -/

section Ingest

variable (utf16ToUtf8 : List UInt16 → List UInt8)

theorem pushPacket_times (m : KndModel) (rec' : KndRecord) (f : KndFlow) (dir : UInt8) (len : UInt32)
    (data : Nat → UInt8) :
    ((m.pushPacket rec' f dir len data).packets.map KndPacket.ts).Sublist
      (m.packets.map KndPacket.ts ++ [rec'.timestamp]) := by
  have hlog : ∀ ps : List KndPacket, ((if ps.length > m.packetCap then ps.drop 1 else ps).map
      KndPacket.ts).Sublist (ps.map KndPacket.ts) := by
    intro ps
    apply List.Sublist.map
    split
    · exact List.drop_sublist 1 ps
    · exact List.Sublist.refl ps
  refine (hlog _).trans ?_
  rw [List.map_append]
  exact List.Sublist.refl _

/-- The packets of the log have the times of the records. -/
theorem ingest_times (m : KndModel) (p : Nat → UInt8) (now : Nat) :
    ((m.ingest utf16ToUtf8 p now).packets.map KndPacket.ts).Sublist
      (m.packets.map KndPacket.ts ++ [(KndRecord.read p).timestamp]) := by
  unfold KndModel.ingest
  dsimp only
  split
  · exact pushPacket_times ..
  split
  · exact pushPacket_times ..
  split
  · exact pushPacket_times ..
  · exact List.sublist_append_left ..

theorem touch_items {m : KndModel} {flowId : UInt64} {now : Nat} {g : KndFlow → KndFlow}
    {rec' : KndRecord} {dir : KndFlow → UInt8} {len : UInt32} {data : Nat → UInt8} {f : KndFlow}
    (h : f ∈ (m.touch flowId now g rec' dir len data).table.items) :
    f ∈ m.table.items ∨ ∃ x, f = g x := by
  have hmodify : ∀ (items : List KndFlow) (i : Nat),
      (∀ j x, j ≠ i → items[j]? = some x → x ∈ m.table.items) → f ∈ items.modify i g →
      f ∈ m.table.items ∨ ∃ x, f = g x := by
    intro items i hother hmem
    obtain ⟨j, hj⟩ := List.mem_iff_getElem?.mp hmem
    rw [List.getElem?_modify] at hj
    by_cases hij : i = j
    · simp only [if_pos hij, Option.map_eq_map] at hj
      obtain ⟨x, -, hx⟩ := Option.map_eq_some_iff.mp hj
      exact .inr ⟨x, hx.symm⟩
    · simp only [if_neg hij, Option.map_eq_map, Option.map_id'] at hj
      exact .inl (hother j f (Ne.symm hij) hj)
  unfold KndModel.touch KndModel.getOrCreate Indexed.ensure at h
  cases hindex : m.table.index flowId with
  | some i =>
    rw [hindex] at h
    exact hmodify m.table.items i (fun j x _ hx => List.mem_of_getElem? hx) h
  | none =>
    rw [hindex] at h
    refine hmodify (m.table.items ++ [KndFlow.new flowId now]) m.table.items.length ?_ h
    intro j x hj hx
    have hlt := (List.getElem?_eq_some_iff.mp hx).1
    rw [List.length_append, List.length_singleton] at hlt
    rw [List.getElem?_append_left (by omega)] at hx
    exact List.mem_of_getElem? hx

/-- The last time of a flow is its old one, or that of the record. -/
theorem ingest_lastTs (m : KndModel) (p : Nat → UInt8) (now : Nat) {f : KndFlow}
    (h : f ∈ (m.ingest utf16ToUtf8 p now).table.items) :
    f ∈ m.table.items ∨ f.lastTs = (KndRecord.read p).timestamp := by
  unfold KndModel.ingest at h
  dsimp only at h
  split at h
  · dsimp only at h
    rcases touch_items h with hold | ⟨x, rfl⟩
    · exact .inl hold
    · exact .inr rfl
  split at h
  · dsimp only at h
    rcases touch_items h with hold | ⟨x, rfl⟩
    · exact .inl hold
    · exact .inr rfl
  split at h
  · dsimp only at h
    rcases touch_items h with hold | ⟨x, rfl⟩
    · exact .inl hold
    · exact .inr rfl
  · exact .inl h

end Ingest

/-! ### One step -/

/-- Everything a step can do. -/
inductive Ticked (utf16ToUtf8 : List UInt16 → List UInt8) (y : Timed) : Tick → Timed → Prop
  | tick (now : UInt64) (hnow : y.clock ≤ now) :
      Ticked utf16ToUtf8 y (.tick now) { y with clock := now }
  | arrive (c : WriteCall) :
      Ticked utf16ToUtf8 y (.arrive c) { y with callers := y.callers ++ [.called c] }
  | stamp (i : Nat) (c : WriteCall) (hi : y.callers[i]? = some (.called c)) :
      Ticked utf16ToUtf8 y (.stamp i)
        { y with callers := y.callers.set i (.stamped { c with timestamp := y.clock }) }
  | oversize (i : Nat) (c : WriteCall) (s : System) (hi : y.callers[i]? = some (.called c))
      (hlong : y.system.ring.dataSize < c.recLen) (hs : y.system.step (.call c) = some s) :
      Ticked utf16ToUtf8 y (.lock i) { y with system := s, callers := y.callers.set i .done }
  | lock (i : Nat) (c : WriteCall) (s : System) (hi : y.callers[i]? = some (.stamped c))
      (hs : y.system.step (.call c) = some s) :
      Ticked utf16ToUtf8 y (.lock i) { y with system := s, callers := y.callers.set i .done }
  | access (e : Ring.Event) (s : System) (hcall : ∀ c, e ≠ .call c) (hdeliver : e ≠ .deliver)
      (hs : y.system.step e = some s) : Ticked utf16ToUtf8 y (.access e) { y with system := s }
  | deliver (now wp rp len : Nat) (got : List UInt8) (s : System)
      (hc : y.system.consumer = .reading wp rp len got) (hs : y.system.step .deliver = some s) :
      Ticked utf16ToUtf8 y (.deliver now)
        { y with system := s, model := y.model.ingest utf16ToUtf8 (pointer got) now }

variable {utf16ToUtf8 : List UInt16 → List UInt8}

theorem Timed.step_cases {y z : Timed} {e : Tick} (h : y.step utf16ToUtf8 e = some z) :
    Ticked utf16ToUtf8 y e z := by
  cases e with
  | tick now =>
    simp only [Timed.step] at h
    split at h
    · obtain rfl := Option.some.inj h
      exact .tick now (by assumption)
    · cases h
  | arrive c =>
    obtain rfl := Option.some.inj h
    exact .arrive c
  | stamp i =>
    simp only [Timed.step] at h
    split at h
    · split at h
      · cases h
      · obtain rfl := Option.some.inj h
        exact .stamp i _ (by assumption)
    · cases h
  | lock i =>
    simp only [Timed.step, Timed.acquire] at h
    split at h
    · split at h
      · obtain ⟨s, hs, rfl⟩ := Option.map_eq_some_iff.mp h
        exact .oversize i _ s (by assumption) (by assumption) hs
      · cases h
    · obtain ⟨s, hs, rfl⟩ := Option.map_eq_some_iff.mp h
      exact .lock i _ s (by assumption) hs
    · cases h
  | access e =>
    cases e with
    | call c => cases h
    | deliver => cases h
    | store | publish | sample | walk | copy | release =>
      obtain ⟨s, hs, rfl⟩ := Option.map_eq_some_iff.mp h
      exact .access _ s (by simp) (by simp) hs
  | deliver now =>
    simp only [Timed.step] at h
    split at h
    · obtain ⟨s, hs, rfl⟩ := Option.map_eq_some_iff.mp h
      exact .deliver now _ _ _ _ s (by assumption) hs
    · cases h

/-- A call that takes the lock gets its place behind the others, or is dropped. -/
theorem call_placed {s t : System} {c : WriteCall} (hD : RingSize s.ring.dataSize)
    (hs : s.step (.call c) = some t) :
    inFlight s = [] ∧ t.accepted = s.accepted ∧
      (Accepts s.ring c ∧ inFlight t = [c] ∨ ¬Accepts s.ring c ∧ inFlight t = []) := by
  cases System.step_cases hs with
  | call _ hp =>
    have hidle : inFlight s = [] := by
      rw [inFlight, hp]
      rfl
    unfold System.begin beginWrite
    rcases place_eq c hD with ⟨haccepts, heq⟩ | ⟨hnot, heq⟩
    · rw [heq]
      refine ⟨hidle, rfl, .inl ⟨haccepts, ?_⟩⟩
      simp only [inFlight, Option.map_some, Option.toList_some, Pending.of_call]
    · rw [heq]
      exact ⟨hidle, rfl, .inr ⟨hnot, hidle⟩⟩

/-! ### The invariant -/

/-- The model has the times of delivered records only. -/
structure Linked (D : Nat) (y : Timed) : Prop where
  ring : Ring.Inv D y.system
  callers : ∀ x ∈ y.callers, ∀ c, x = .called c ∨ x = .stamped c → c.Legal
  packets : (y.model.packets.map KndPacket.ts).Sublist
    ((y.system.accepted.take y.system.delivered.length).map fun a => a.call.timestamp)
  flows : ∀ f ∈ y.model.table.items,
    ∃ a ∈ y.system.accepted.take y.system.delivered.length, f.lastTs = a.call.timestamp

theorem linked_initial {D : Nat} (hD : RingSize D) (clock : UInt64) (cap packetCap : Nat) :
    Linked D (Timed.initial (RingState.fresh D) clock cap packetCap) where
  ring := Ring.inv_initial hD
  callers := by simp [Timed.initial]
  packets := List.Sublist.refl _
  flows := by simp [Timed.initial, KndModel.empty, Indexed.empty]

theorem legal_of_set {callers : List Caller} {x : Caller} {i : Nat}
    (h : ∀ x ∈ callers, ∀ c, x = .called c ∨ x = .stamped c → c.Legal)
    (hx : ∀ c, x = .called c ∨ x = .stamped c → c.Legal) :
    ∀ x' ∈ callers.set i x, ∀ c, x' = .called c ∨ x' = .stamped c → c.Legal := by
  intro x' hmem
  rcases List.mem_or_eq_of_mem_set hmem with hold | rfl
  · exact h x' hold
  · exact hx

/-- What is delivered of the calls changes with a delivery only. -/
theorem take_delivered {D : Nat} {s t : System} {e : Ring.Event} (h : Ring.Inv D s)
    (hdeliver : e ≠ .deliver) (hs : s.step e = some t) :
    t.accepted.take t.delivered.length = s.accepted.take s.delivered.length := by
  rw [delivered_step hdeliver hs]
  by_cases hpublish : e = .publish
  · subst hpublish
    cases System.step_cases hs with
    | publish p hp hst => exact List.take_append_of_le_length (delivered_le h)
  · rw [accepted_step hpublish hs]

theorem Linked.system {D : Nat} {y : Timed} {s : System} {e : Ring.Event} (hD : RingSize D)
    (h : Linked D y) (hlegal : e.Legal) (hdeliver : e ≠ .deliver) (hs : y.system.step e = some s) :
    Linked D { y with system := s } := by
  have htake := take_delivered h.ring hdeliver hs
  have hpackets := h.packets
  have hflows := h.flows
  rw [← htake] at hpackets hflows
  exact ⟨(step_refines hD hlegal h.ring hs).1, h.callers, hpackets, hflows⟩

theorem Linked.callers_set {D : Nat} {y : Timed} {i : Nat} {x : Caller} (h : Linked D y)
    (hx : ∀ c, x = .called c ∨ x = .stamped c → c.Legal) :
    Linked D { y with callers := y.callers.set i x } :=
  ⟨h.ring, legal_of_set h.callers hx, h.packets, h.flows⟩

/-- The model gets the times of the next record. -/
theorem Linked.deliver {D : Nat} {y : Timed} {s : System} {wp rp len : Nat} {got : List UInt8}
    (hD : RingSize D) (h : Linked D y) (hc : y.system.consumer = .reading wp rp len got)
    (hs : y.system.step .deliver = some s) (now : Nat) :
    Linked D { y with system := s, model := y.model.ingest utf16ToUtf8 (pointer got) now } := by
  have hring := (step_refines hD (fun c hc => by cases hc) h.ring hs).1
  obtain ⟨hle, rfl⟩ := System.step_deliver hc hs
  obtain ⟨a, hget, rfl, hcarries⟩ := deliver_next h.ring hc hle
  have htake : y.system.accepted.take (y.system.delivered ++ [a.bytes]).length =
      y.system.accepted.take y.system.delivered.length ++ [a] := by
    rw [List.length_append, List.length_singleton, List.take_add_one, hget]
    rfl
  have htimes := ingest_times utf16ToUtf8 y.model (pointer a.bytes) now
  have hpackets := htimes.trans (h.packets.append_right _)
  refine ⟨hring, h.callers, ?_, ?_⟩
  · show List.Sublist _ (List.map _ (y.system.accepted.take (y.system.delivered ++
      [a.bytes]).length))
    rw [htake, List.map_append, List.map_singleton, ← hcarries.timestamp]
    exact hpackets
  · intro f hf
    show ∃ b ∈ y.system.accepted.take (y.system.delivered ++ [a.bytes]).length, _
    rw [htake]
    dsimp only at hf
    rcases ingest_lastTs utf16ToUtf8 y.model (pointer a.bytes) now hf with hold | hnew
    · obtain ⟨b, hb, hlast⟩ := h.flows f hold
      exact ⟨b, List.mem_append_left _ hb, hlast⟩
    · exact ⟨a, List.mem_append_right _ (List.mem_singleton_self a),
        hnew.trans hcarries.timestamp⟩

theorem step_linked {D : Nat} {y z : Timed} {e : Tick} (hD : RingSize D) (hlegal : e.Legal)
    (h : Linked D y) (hstep : y.step utf16ToUtf8 e = some z) : Linked D z := by
  have hcall {i : Nat} {c : WriteCall} {s : System} (hc : c.Legal)
      (hs : y.system.step (.call c) = some s) :
      Linked D { y with system := s, callers := y.callers.set i .done } := by
    have hnext := h.system hD (fun c' hc' => by cases hc'; exact hc) (by simp) hs
    exact hnext.callers_set (by simp)
  cases Timed.step_cases hstep with
  | tick now hnow => exact ⟨h.ring, h.callers, h.packets, h.flows⟩
  | arrive c =>
    refine ⟨h.ring, ?_, h.packets, h.flows⟩
    intro x hx c' hc'
    rcases List.mem_append.mp hx with hold | hnew
    · exact h.callers x hold c' hc'
    · obtain rfl := List.mem_singleton.mp hnew
      rcases hc' with heq | heq
      · cases heq
        exact hlegal
      · cases heq
  | stamp i c hi =>
    have hc := h.callers _ (List.mem_of_getElem? hi) c (.inl rfl)
    refine h.callers_set fun c' hc' => ?_
    rcases hc' with heq | heq
    · cases heq
    · cases heq
      exact ⟨⟨hc.payload, hc.data, hc.size⟩, hc.type⟩
  | oversize i c s hi hlong hs => exact hcall (h.callers _ (List.mem_of_getElem? hi) c (.inl rfl)) hs
  | lock i c s hi hs => exact hcall (h.callers _ (List.mem_of_getElem? hi) c (.inr rfl)) hs
  | access e s hnot hdeliver hs => exact h.system hD (fun c hc => absurd hc (hnot c)) hdeliver hs
  | deliver now wp rp len got s hc hs => exact h.deliver hD hc hs now

/-- The order of the ring decides. -/
theorem chronological_iff {D : Nat} {y : Timed} (h : Linked D y) :
    y.Chronological ↔ y.placed.Pairwise fun c c' => c.timestamp ≤ c'.timestamp := by
  refine ⟨Timed.Chronological.ring, fun hring => ?_⟩
  have haccepted : y.system.accepted.Pairwise
      fun a b => a.call.timestamp ≤ b.call.timestamp := by
    have hcalls := List.pairwise_map.mp (List.pairwise_append.mp hring).1
    exact hcalls
  constructor
  case sequence =>
    obtain ⟨cur, hinv⟩ := h.ring
    exact hinv.sequence_lt
  case ring => exact hring
  case packets =>
    have htaken := haccepted.sublist (List.take_sublist y.system.delivered.length _)
    have htimes := (List.pairwise_map.mpr htaken).sublist h.packets
    exact List.pairwise_map.mp htimes
  case lastTs =>
    intro f hf b hb
    obtain ⟨a, ha, hlast⟩ := h.flows f hf
    rw [← List.take_append_drop y.system.delivered.length y.system.accepted] at haccepted
    rw [hlast]
    exact (List.pairwise_append.mp haccepted).2.2 a ha b hb

end NetDebugger.Pipeline
