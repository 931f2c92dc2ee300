import NetDebugger.Capture
import NetDebugger.Model.Records
import NetDebugger.Ring.Exactness

/-! From the wire to the model: stream indications are cut into chunks, each chunk is a call of
`KndRingWrite`, the poll hands records to `KndModel::ingest`.  Indications of one flow and direction
come one after the other; everything else interleaves access by access. -/

namespace NetDebugger.Pipeline

open Lib NetDebugger.Ring Capture

/-- What a call of `KndRingWrite` was made for. -/
inductive Source
  | opened (f : FlowFields) (next : UInt64)
  | closed (flowId : UInt64)
  | data (k : Stream) (flags : UInt16) (chunk : List UInt8)

def dirByte : Dir → UInt8
  | .outbound => kndDirOutbound
  | .inbound => kndDirInbound

def Source.call (timestamp : UInt64) : Source → WriteCall
  | .opened f next => connCall kndRecConnOpen (openPayload f next) timestamp
  | .closed flowId => connCall kndRecConnClose (closePayload flowId) timestamp
  | .data k flags chunk => dataCall k.1 (dirByte k.2) flags chunk timestamp

/-- The stream an indication belongs to. -/
def stream (i : Indication) : Stream := (i.flowId, Dir.of i.direction)

/-- The whole path. `indications` and `calls` are histories: what WFP indicated, and the calls of
`KndRingWrite` in lock order with what they return. -/
structure State where
  system : System
  model : KndModel
  queue : Stream → List (UInt16 × List UInt8)
  indications : List Indication
  calls : List (Source × Bool)

inductive Event
  | indicate (i : Indication)
  | emit (k : Stream) (timestamp : UInt64)
  | opened (f : FlowFields) (next timestamp : UInt64)
  | closed (flowId timestamp : UInt64)
  | access (e : Ring.Event)
  | deliver (now : Nat)

def State.initial (s : RingState) (payloadCap packetCap : Nat) : State :=
  ⟨System.initial s, KndModel.empty payloadCap packetCap, fun _ => [], [], []⟩

/-- A call takes the lock; it returns FALSE at once or goes on to its stores. -/
def State.write (y : State) (src : Source) (timestamp : UInt64) : Option State :=
  (y.system.step (.call (src.call timestamp))).map fun s =>
    { y with system := s, calls := y.calls ++ [(src, s.producer.isSome)] }

section

variable (utf16ToUtf8 : List UInt16 → List UInt8)

def State.step (y : State) : Event → Option State
  | .indicate i =>
    if y.queue (stream i) = [] then
      some { y with
        queue := Function.update y.queue (stream i) ((kndClassifyStream i).map (i.flags, ·))
        indications := y.indications ++ [i] }
    else none
  | .emit k timestamp =>
    match y.queue k with
    | [] => none
    | (flags, chunk) :: rest =>
      { y with queue := Function.update y.queue k rest }.write (.data k flags chunk) timestamp
  | .opened f next timestamp => y.write (.opened f next) timestamp
  | .closed flowId timestamp => y.write (.closed flowId) timestamp
  | .access (.call _) => none
  | .access .deliver => none
  | .access e => (y.system.step e).map fun s => { y with system := s }
  | .deliver now =>
    match y.system.consumer with
    | .reading _ _ _ got => (y.system.step .deliver).map fun s =>
        { y with system := s, model := y.model.ingest utf16ToUtf8 (pointer got) now }
    | _ => none

end

/-- Nothing is under way, and the poll has caught up. -/
structure State.Drained (y : State) : Prop where
  producer : y.system.producer = none
  consumer : y.system.consumer = .idle
  caughtUp : y.system.ring.header.readPos = y.system.ring.header.writePos
  queue : ∀ i ∈ y.indications, y.queue (stream i) = []

/-- The sources of the calls that returned TRUE. -/
def kept (calls : List (Source × Bool)) : List Source :=
  calls.filterMap fun c => if c.2 then some c.1 else none

/-- The number of calls that returned FALSE. -/
def dropped (calls : List (Source × Bool)) : Nat := (calls.filter fun c => !c.2).length

/-- The record that a call asks for. -/
def Source.record : Source → Record
  | .opened f next => .opened (openPayload f next)
  | .closed flowId => .closed (closePayload flowId)
  | .data k _ chunk => .data (dataPayload k.1 (dirByte k.2) chunk) chunk

/-- The bytes of a stream in a list of calls. -/
def sentFor (k : Stream) (srcs : List Source) : List UInt8 := bytesOf k (srcs.map Source.record)

/-- What is copied of the stream's indications. -/
def indicated (k : Stream) (is : List Indication) : List UInt8 :=
  is.flatMap fun i => if stream i = k then i.scratch else []

/-- A chunk of the loop of `KndClassifyStream`. -/
def Source.Chunk : Source → Prop
  | .data _ _ chunk => 0 < chunk.length ∧ chunk.length ≤ kndMaxDataChunk
  | _ => True

/-! ### The invariant -/

/-- The call that holds the lock. -/
def inFlight (s : System) : List WriteCall := (s.producer.map Pending.call).toList

/-- The calls that returned TRUE are those in the ring's history and the one that holds the lock. -/
def CallsMatch (y : State) : Prop :=
  List.Forall₂ (fun src c => ∃ timestamp, c = Source.call timestamp src) (kept y.calls)
    (y.system.accepted.map Accepted.call ++ inFlight y.system)

structure Inv (D cap : Nat) (y : State) : Prop where
  ring : Ring.Inv D y.system
  calls : CallsMatch y
  droppedRecords : y.system.ring.header.droppedRecords = dropped y.calls % 2 ^ 64
  chunks : ∀ c ∈ y.calls, c.1.Chunk
  queued : ∀ k, ∀ c ∈ y.queue k, 0 < c.2.length ∧ c.2.length ≤ kndMaxDataChunk
  sent : ∀ k, sentFor k (y.calls.map Prod.fst) ++ (y.queue k).flatMap Prod.snd =
    indicated k y.indications
  model : Tracks cap y.model
    (((kept y.calls).take y.system.delivered.length).map Source.record)

theorem dir_of_dirByte (d : Dir) : Dir.of (dirByte d) = d := by
  cases d <;> rfl

theorem Source.call_legal {src : Source} (h : src.Chunk) (timestamp : UInt64) :
    (src.call timestamp).Legal := by
  cases src with
  | opened f next => exact connCall_legal _ _ (.inl rfl)
  | closed flowId => exact connCall_legal _ _ (.inr rfl)
  | data k flags chunk => exact dataCall_legal h.2

theorem Source.record_produced {src : Source} (h : src.Chunk) : src.record.Produced := by
  cases src with
  | opened f next => trivial
  | closed flowId => exact ⟨rfl, rfl⟩
  | data k flags chunk => exact h.1

/-- A delivered record means what its call was made for. -/
theorem Source.record_at {a : Accepted} {bs : List UInt8} {src : Source} {timestamp : UInt64}
    (h : Carries a bs) (hcall : a.call = src.call timestamp) (hchunk : src.Chunk) :
    src.record.At (pointer bs) := by
  cases src with
  | opened f next => exact Carries.conn h hcall (openPayload_valid f next)
  | closed flowId => exact Carries.conn h hcall (closePayload_valid flowId)
  | data k flags chunk =>
    obtain ⟨htype, hread, hlies⟩ := Carries.data_record h hcall
    refine ⟨htype, hread, ?_, hlies⟩
    have hmax : kndMaxDataChunk = 65536 := rfl
    have hle := hchunk.2
    show (UInt32.ofNat chunk.length).toNat = chunk.length
    rw [UInt32.toNat_ofNat']
    exact Nat.mod_eq_of_lt (by omega)

theorem sentFor_snoc (k : Stream) (srcs : List Source) (src : Source) :
    sentFor k (srcs ++ [src]) = sentFor k srcs ++ src.record.bytesFor k := by
  rw [sentFor, List.map_append, List.map_singleton, bytesOf_snoc]
  rfl

theorem bytesFor_data (k k' : Stream) (flags : UInt16) (chunk : List UInt8) :
    (Source.data k' flags chunk).record.bytesFor k = if k' = k then chunk else [] := by
  simp only [Source.record, Record.bytesFor, dataPayload, dir_of_dirByte, Prod.mk.eta]

theorem kept_snoc (calls : List (Source × Bool)) (src : Source) (ok : Bool) :
    kept (calls ++ [(src, ok)]) = if ok then kept calls ++ [src] else kept calls := by
  cases ok <;> simp [kept]

theorem dropped_snoc (calls : List (Source × Bool)) (src : Source) (ok : Bool) :
    dropped (calls ++ [(src, ok)]) = dropped calls + if ok then 0 else 1 := by
  cases ok <;> simp [dropped]

theorem indicated_snoc (k : Stream) (is : List Indication) (i : Indication) :
    indicated k (is ++ [i]) = indicated k is ++ if stream i = k then i.scratch else [] := by
  simp [indicated]

/-- What a call does: it is dropped, or it holds the lock from now on. -/
theorem write_inv {D : Nat} {y z : State} {src : Source} {timestamp : UInt64} (hD : RingSize D)
    (hring : Ring.Inv D y.system) (hcalls : CallsMatch y)
    (hdropped : y.system.ring.header.droppedRecords = dropped y.calls % 2 ^ 64)
    (hchunk : src.Chunk) (h : y.write src timestamp = some z) :
    Ring.Inv D z.system ∧ CallsMatch z ∧
    z.system.ring.header.droppedRecords = dropped z.calls % 2 ^ 64 ∧
    (∃ ok, z.calls = y.calls ++ [(src, ok)]) ∧ z.system.delivered = y.system.delivered ∧
    z.model = y.model ∧ z.queue = y.queue ∧ z.indications = y.indications := by
  obtain ⟨s, hs, rfl⟩ := Option.map_eq_some_iff.mp h
  replace hring := (step_refines hD (fun c hc => by
    cases hc
    exact Source.call_legal hchunk timestamp) hring hs).1
  refine ⟨hring, ?_, ?_, ⟨_, rfl⟩, delivered_step (by simp) hs, rfl, rfl, rfl⟩
  · cases System.step_cases hs with
    | call c hp =>
      simp only [CallsMatch, kept_snoc, inFlight, hp, Option.map_none, Option.toList_none,
        List.append_nil] at hcalls ⊢
      rw [System.begin]
      cases hbegin : beginWrite y.system.ring (src.call timestamp) with
      | error t => simpa [hp] using hcalls
      | ok p =>
        have hcall : p.call = src.call timestamp := by
          rw [beginWrite] at hbegin
          split at hbegin
          · cases hbegin
          · obtain rfl := Except.ok.inj hbegin
            exact Pending.of_call ..
        simp only [Option.isSome_some, if_true, Option.map_some, Option.toList_some]
        exact List.rel_append hcalls (.cons ⟨timestamp, hcall⟩ .nil)
  · cases System.step_cases hs with
    | call c hp =>
      simp only [dropped_snoc]
      rw [System.begin]
      cases hbegin : beginWrite y.system.ring (src.call timestamp) with
      | error t =>
        obtain ⟨bytes, rfl⟩ := beginWrite_error hbegin
        simp only [hp, RingState.drop, hdropped, Option.isSome_none, Bool.false_eq_true, if_false]
        omega
      | ok p =>
        simp only [Option.isSome_some, if_true, Nat.add_zero]
        exact hdropped

theorem access_system {s t : System} {e : Ring.Event} (hcall : ∀ c, e ≠ .call c)
    (hdeliver : e ≠ .deliver) (h : s.step e = some t) :
    t.accepted.map Accepted.call ++ inFlight t = s.accepted.map Accepted.call ++ inFlight s ∧
      t.delivered = s.delivered ∧
      t.ring.header.droppedRecords = s.ring.header.droppedRecords := by
  cases System.step_cases h with
  | call c hp => exact absurd rfl (hcall c)
  | store p st rest hp hst =>
    refine ⟨?_, rfl, rfl⟩
    simp only [inFlight, hp]
    rfl
  | publish p hp hst =>
    refine ⟨?_, rfl, rfl⟩
    simp [System.publish, inFlight, hp, Pending.accepted]
  | sample hc => exact ⟨rfl, rfl, rfl⟩
  | walk wp rp hc hlt =>
    rw [System.walk_accepted, System.walk_delivered, System.walk_ring, inFlight, System.walk_producer]
    exact ⟨rfl, rfl, rfl⟩
  | copy wp rp len got hc hlt => exact ⟨rfl, rfl, rfl⟩
  | deliver wp rp len got hc hle => exact absurd rfl hdeliver
  | release wp rp hc hle => exact ⟨rfl, rfl, rfl⟩

theorem inv_initial {D : Nat} (hD : RingSize D) (cap packetCap : Nat) :
    Inv D cap (State.initial (RingState.fresh D) cap packetCap) := by
  constructor
  case ring => exact Ring.inv_initial hD
  case calls => exact .nil
  case droppedRecords => rfl
  case chunks => simp [State.initial]
  case queued => simp [State.initial]
  case sent => simp [State.initial, sentFor, bytesOf, indicated]
  case model => exact tracks_empty cap packetCap

/-- The calls so far and the queue of a stream are unchanged by a call of another source. -/
theorem write_sent {y z : State} {src : Source} {ok : Bool} (k : Stream)
    (hcalls : z.calls = y.calls ++ [(src, ok)]) :
    sentFor k (z.calls.map Prod.fst) =
      sentFor k (y.calls.map Prod.fst) ++ src.record.bytesFor k := by
  rw [hcalls, List.map_append, List.map_singleton, sentFor_snoc]

/-- What is delivered does not depend on the calls after it. -/
theorem kept_take {D cap : Nat} {y : State} (hy : Inv D cap y) (src : Source) (ok : Bool) :
    (kept (y.calls ++ [(src, ok)])).take y.system.delivered.length =
      (kept y.calls).take y.system.delivered.length := by
  have hle : y.system.delivered.length ≤ (kept y.calls).length := by
    obtain ⟨cur, hinv⟩ := hy.ring
    have hdelivered := hinv.ordered.length_le
    have hlen := hy.calls.length_eq
    simp only [System.channel, List.length_map, List.length_append] at hdelivered hlen
    omega
  rw [kept_snoc]
  cases ok with
  | true => exact List.take_append_of_le_length hle
  | false => rfl

theorem getElem?_of_forall₂ {α β : Type} {R : α → β → Prop} {xs : List α} {ys : List β}
    (h : List.Forall₂ R xs ys) {i : Nat} {b : β} (hb : ys[i]? = some b) :
    ∃ a, xs[i]? = some a ∧ R a b := by
  induction h generalizing i with
  | nil => simp at hb
  | cons hab _ ih =>
    cases i with
    | zero =>
      obtain rfl := Option.some.inj hb
      exact ⟨_, rfl, hab⟩
    | succ i => exact ih hb

section Run

variable {utf16ToUtf8 : List UInt16 → List UInt8}

theorem access_cases {y z : State} {e : Ring.Event}
    (h : y.step utf16ToUtf8 (.access e) = some z) :
    ∃ s, y.system.step e = some s ∧ z = { y with system := s } ∧ (∀ c, e ≠ .call c) ∧
      e ≠ .deliver := by
  cases e with
  | call c => cases h
  | deliver => cases h
  | store | publish | sample | walk | copy | release =>
    obtain ⟨s, hs, rfl⟩ := Option.map_eq_some_iff.mp h
    exact ⟨s, hs, rfl, by simp, by simp⟩

theorem deliver_model {D cap : Nat} {y : State} {s : System} {wp rp len : Nat} {got : List UInt8}
    (now : Nat) (hy : Inv D cap y) (hc : y.system.consumer = .reading wp rp len got)
    (hs : y.system.step .deliver = some s) :
    Tracks cap (y.model.ingest utf16ToUtf8 (pointer got) now)
      (((kept y.calls).take s.delivered.length).map Source.record) := by
  obtain ⟨hle, rfl⟩ := System.step_deliver hc hs
  obtain ⟨a, hget, rfl, hcarries⟩ := deliver_next hy.ring hc hle
  have hget' : (y.system.accepted.map Accepted.call ++ inFlight y.system)[
      y.system.delivered.length]? = some a.call := by
    have hmap : (y.system.accepted.map Accepted.call)[y.system.delivered.length]? =
        some a.call := by rw [List.getElem?_map, hget]; rfl
    rw [List.getElem?_append_left (List.getElem?_eq_some_iff.mp hmap).1, hmap]
  obtain ⟨src, hsrc, timestamp, hcall⟩ := getElem?_of_forall₂ hy.calls hget'
  obtain ⟨c, hcmem, hc⟩ := List.mem_filterMap.mp (List.mem_of_getElem? hsrc)
  have hchunk : src.Chunk := by
    have hall := hy.chunks c hcmem
    split at hc
    · exact Option.some.inj hc ▸ hall
    · cases hc
  have htrack := @Tracks.ingest utf16ToUtf8 _ _ _ hy.model _ _
    (Source.record_at hcarries hcall hchunk) (Source.record_produced hchunk) now
  show Tracks cap _ (((kept y.calls).take (y.system.delivered ++ [a.bytes]).length).map _)
  rw [List.length_append, List.length_singleton, List.take_add_one, hsrc, List.map_append]
  exact htrack

/-- A call that takes its bytes from the queue. -/
theorem write_step {D cap : Nat} {y z : State} {src : Source} {timestamp : UInt64}
    (q : Stream → List (UInt16 × List UInt8)) (hD : RingSize D) (hy : Inv D cap y)
    (hchunk : src.Chunk) (hsub : ∀ k, q k ⊆ y.queue k)
    (hq : ∀ k, (y.queue k).flatMap Prod.snd = src.record.bytesFor k ++ (q k).flatMap Prod.snd)
    (h : State.write { y with queue := q } src timestamp = some z) : Inv D cap z := by
  obtain ⟨hring, hcalls, hdropped, ⟨ok, hz⟩, hdelivered, hmodel, hqueue, hindications⟩ :=
    write_inv hD (show Ring.Inv D ({ y with queue := q } : State).system from hy.ring) hy.calls
      hy.droppedRecords hchunk h
  refine ⟨hring, hcalls, hdropped, ?_, ?_, ?_, ?_⟩
  · rw [hz]
    intro c hc
    rcases List.mem_append.mp hc with hc | hc
    · exact hy.chunks c hc
    · rw [List.mem_singleton.mp hc]
      exact hchunk
  · rw [hqueue]
    exact fun k c hc => hy.queued k c (hsub k hc)
  · intro k
    have hsent := hy.sent k
    rw [hq k, ← List.append_assoc] at hsent
    rw [write_sent k hz, hqueue, hindications]
    exact hsent
  · rw [hmodel, hdelivered, hz, kept_take hy]
    exact hy.model

/-- Every event keeps the invariant. -/
theorem step_inv {D cap : Nat} {y z : State} {e : Event} (hD : RingSize D) (hy : Inv D cap y)
    (h : y.step utf16ToUtf8 e = some z) : Inv D cap z := by
  cases e with
  | indicate i =>
    simp only [State.step] at h
    split at h
    · rename_i hempty
      obtain rfl := Option.some.inj h
      refine ⟨hy.ring, hy.calls, hy.droppedRecords, hy.chunks, ?_, ?_, hy.model⟩
      · intro k c hc
        by_cases hk : k = stream i
        · subst hk
          simp only [Function.update_self] at hc
          obtain ⟨chunk, hchunk, rfl⟩ := List.mem_map.mp hc
          exact mem_chunkLoop hchunk
        · simp only [Function.update_of_ne hk] at hc
          exact hy.queued k c hc
      · intro k
        rw [indicated_snoc, ← hy.sent k]
        by_cases hk : k = stream i
        · subst hk
          have hflat : ((kndClassifyStream i).map (i.flags, ·)).flatMap Prod.snd = i.scratch := by
            rw [List.flatMap_map]
            exact List.flatMap_id'.trans (kndClassifyStream_flatten i)
          simp [Function.update_self, hempty, hflat]
        · simp [Function.update_of_ne hk, Ne.symm hk]
    · cases h
  | emit k timestamp =>
    simp only [State.step] at h
    split at h
    · cases h
    · rename_i flags chunk rest hqueue
      have hchunk : (Source.data k flags chunk).Chunk :=
        hy.queued k (flags, chunk) (by rw [hqueue]; exact List.mem_cons_self ..)
      refine write_step _ hD hy hchunk ?_ ?_ h
      · intro k' c hc
        by_cases hk : k' = k
        · subst hk
          rw [Function.update_self] at hc
          rw [hqueue]
          exact List.mem_cons_of_mem _ hc
        · rwa [Function.update_of_ne hk] at hc
      · intro k'
        rw [bytesFor_data]
        by_cases hk : k' = k
        · subst hk
          simp [hqueue]
        · simp [Function.update_of_ne hk, Ne.symm hk]
  | opened f next timestamp =>
    have hchunk : (Source.opened f next).Chunk := trivial
    exact write_step y.queue hD hy hchunk (fun _ => List.Subset.refl _) (fun _ => rfl) h
  | closed flowId timestamp =>
    have hchunk : (Source.closed flowId).Chunk := trivial
    exact write_step y.queue hD hy hchunk (fun _ => List.Subset.refl _) (fun _ => rfl) h
  | access e =>
    obtain ⟨s, hs, rfl, hcall, hdeliver⟩ := access_cases h
    have hring := (step_refines hD (fun c hc => absurd hc (hcall c)) hy.ring hs).1
    obtain ⟨hcalls, hdelivered, hdropped⟩ := access_system hcall hdeliver hs
    refine ⟨hring, ?_, hdropped.trans hy.droppedRecords, hy.chunks, hy.queued, hy.sent, ?_⟩
    · show List.Forall₂ _ (kept y.calls) (s.accepted.map Accepted.call ++ inFlight s)
      rw [hcalls]
      exact hy.calls
    · show Tracks cap y.model (((kept y.calls).take s.delivered.length).map Source.record)
      rw [hdelivered]
      exact hy.model
  | deliver now =>
    simp only [State.step] at h
    split at h
    · rename_i wp rp len got hc
      obtain ⟨s, hs, rfl⟩ := Option.map_eq_some_iff.mp h
      have hmodel := @deliver_model utf16ToUtf8 _ _ _ _ _ _ _ _ now hy hc hs
      have hring := (step_refines hD (fun c hc => by cases hc) hy.ring hs).1
      obtain ⟨-, rfl⟩ := System.step_deliver hc hs
      exact ⟨hring, hy.calls, hy.droppedRecords, hy.chunks, hy.queued, hy.sent, hmodel⟩
    · cases h

theorem run_inv {alloc : Allocation} {size : UInt32} {s₀ : RingState}
    (hcreate : kndRingCreate alloc size = .ok s₀) {cap packetCap : Nat} {es : List Event} {y : State}
    (hrun : runEvents (State.step utf16ToUtf8) (State.initial s₀ cap packetCap) es = some y) :
    RingSize size.toNat ∧ Inv size.toNat cap y := by
  obtain ⟨hD, rfl⟩ := kndRingCreate_ok hcreate
  exact ⟨hD, runEvents_invariant (fun _ => True) (fun _ _ _ _ hs ht => step_inv hD hs ht)
    (inv_initial hD cap packetCap) (fun _ _ => trivial) hrun⟩

end Run

/-! ### Drained states -/

/-- The bytes that accepted calls carry for a stream fit in what they took of the ring. -/
theorem sentFor_length_le (k : Stream) {srcs : List Source} {as : List Accepted}
    (h : List.Forall₂ (fun src c => ∃ timestamp, c = Source.call timestamp src) srcs
      (as.map Accepted.call)) (hcarries : ∀ a ∈ as, Carries a a.bytes) :
    (sentFor k srcs).length ≤ produced as := by
  rw [List.forall₂_map_right_iff] at h
  induction h with
  | nil => exact Nat.zero_le _
  | @cons src a srcs as hcall _ ih =>
    obtain ⟨timestamp, hcall⟩ := hcall
    have hrest := ih fun b hb => hcarries b (List.mem_cons_of_mem _ hb)
    have hlen := (hcarries a (List.mem_cons_self ..)).length
    have hone : (src.record.bytesFor k).length ≤ a.call.data.copied.length := by
      cases src with
      | opened f next => exact Nat.zero_le _
      | closed flowId => exact Nat.zero_le _
      | data k' flags chunk =>
        rw [bytesFor_data, hcall]
        split
        · exact Nat.le_refl _
        · exact Nat.zero_le _
    have hbytes : a.call.data.copied.length ≤ a.bytes.length := by
      simp only [Accepted.bytes, recordBytes, List.length_append]
      omega
    simp only [sentFor, bytesOf, List.map_cons, List.flatMap_cons, List.length_append, produced,
      List.sum_cons] at hrest ⊢
    omega

/-- Once everything is drained, the model has exactly the calls that returned TRUE. -/
theorem drained_model {D cap : Nat} {y : State} (hD : RingSize D) (hy : Inv D cap y)
    (hd : y.Drained) : Tracks cap y.model ((kept y.calls).map Source.record) ∧
      ∀ k, (sentFor k (kept y.calls)).length < 2 ^ 64 := by
  obtain ⟨hdelivered, hbytes⟩ := drained_exact hD hy.ring hd.consumer hd.caughtUp
  have hcalls := hy.calls
  rw [CallsMatch, inFlight, hd.producer, Option.map_none, Option.toList_none,
    List.append_nil] at hcalls
  have hlen := hcalls.length_eq
  rw [List.length_map] at hlen
  have hmodel := hy.model
  rw [hdelivered, List.length_map, ← hlen, List.take_length] at hmodel
  obtain ⟨cur, hinv⟩ := hy.ring
  exact ⟨hmodel, fun k => Nat.lt_of_le_of_lt (sentFor_length_le k hcalls hinv.carries) hbytes⟩

/-- Once everything is drained, every chunk has been written or dropped. -/
theorem drained_sent {D cap : Nat} {y : State} (hy : Inv D cap y) (hd : y.Drained) (k : Stream) :
    sentFor k (y.calls.map Prod.fst) = indicated k y.indications := by
  have hsent := hy.sent k
  by_cases hk : ∃ i ∈ y.indications, stream i = k
  · obtain ⟨i, hi, rfl⟩ := hk
    rwa [hd.queue i hi, List.flatMap_nil, List.append_nil] at hsent
  · have hnone : indicated k y.indications = [] := by
      refine List.flatMap_eq_nil_iff.mpr fun i hi => if_neg fun heq => hk ⟨i, hi, heq⟩
    rw [hnone] at hsent ⊢
    exact (List.append_eq_nil_iff.mp hsent).1

/-- All bytes of the stream's indications. -/
def wire (k : Stream) (is : List Indication) : List UInt8 :=
  is.flatMap fun i => if stream i = k then i.data else []

theorem indicated_eq_wire {k : Stream} {is : List Indication}
    (h : ∀ i ∈ is, stream i = k → i.data.length ≤ kndStreamCopyMax) :
    indicated k is = wire k is := by
  induction is with
  | nil => rfl
  | cons i is ih =>
    have hrest := ih fun j hj => h j (List.mem_cons_of_mem _ hj)
    have hone : (if stream i = k then i.scratch else []) = if stream i = k then i.data else [] := by
      by_cases hi : stream i = k
      · rw [if_pos hi, if_pos hi, Indication.scratch,
          List.take_of_length_le (h i (List.mem_cons_self ..) hi)]
      · rw [if_neg hi, if_neg hi]
    simp only [indicated, wire, List.flatMap_cons] at hrest ⊢
    rw [hone, hrest]

/-- If none of the stream's calls was dropped, what was kept for it is what was called for it. -/
theorem sentFor_kept {k : Stream} {calls : List (Source × Bool)}
    (h : ∀ c ∈ calls, c.1.record.bytesFor k ≠ [] → c.2 = true) :
    sentFor k (kept calls) = sentFor k (calls.map Prod.fst) := by
  induction calls with
  | nil => rfl
  | cons c calls ih =>
    have hrest := ih fun d hd => h d (List.mem_cons_of_mem _ hd)
    obtain ⟨src, ok⟩ := c
    cases ok with
    | true =>
      simp only [kept, sentFor, bytesOf, List.filterMap_cons, if_true, List.map_cons,
        List.flatMap_cons] at hrest ⊢
      rw [hrest]
    | false =>
      have hempty : src.record.bytesFor k = [] := by
        by_contra hne
        have := h (src, false) (List.mem_cons_self ..) hne
        cases this
      simp only [kept, sentFor, bytesOf, List.filterMap_cons, Bool.false_eq_true, if_false,
        List.map_cons, List.flatMap_cons, hempty, List.nil_append] at hrest ⊢
      rw [hrest]

end NetDebugger.Pipeline
