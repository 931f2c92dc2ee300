import NetDebugger.Lib.Runs
import NetDebugger.Ring.Write

/-! The producer and `KndClient::poll` on one mapped region, at the grain of single accesses.  A
call of `KndRingWrite` samples `readPos` under the lock, then makes its stores one byte at a time,
then publishes.  A poll samples `writePos`, walks record after record, and publishes `readPos`. -/

namespace NetDebugger.Ring

open Lib

/-- What the loop of `KndClient::poll` does at a position. -/
inductive Turn
  | resync
  | skip (len : Nat)
  | record (len : Nat)
deriving DecidableEq

/-- The body of the loop of `KndClient::poll`, up to the callback. -/
def pollTurn (data : Memory) (dataSize rp : Nat) : Turn :=
  let off := (rp &&& (dataSize - 1)) % 2 ^ 32
  let rec' := KndRecord.read fun i => data (off + i)
  if rec'.length < sizeofKndRecord ∨ rec'.length &&& (kndRecordAlign - 1) ≠ 0 ∨
      rec'.length > dataSize then .resync
  else if rec'.type ≠ kndRecWrap then .record rec'.length
  else .skip rec'.length

/-- Where the consumer is in `KndClient::poll`. While the callback reads a record, `got` is what it
has read so far. -/
inductive Poll
  | idle
  | walking (wp rp : Nat)
  | reading (wp rp len : Nat) (got : List UInt8)
deriving DecidableEq

/-- A call that returned TRUE, and where its record went. -/
structure Accepted where
  call : WriteCall
  place : Placement
  sequence : Nat
deriving DecidableEq

def Pending.accepted (p : Pending) : Accepted := ⟨p.call, p.place, p.sequence⟩

/-- The record in the ring. -/
def Accepted.bytes (a : Accepted) : List UInt8 := recordBytes a.call a.place.recLen a.sequence

/-- Both parties. `accepted` and `delivered` are histories: the calls that returned TRUE in lock
order, and the records handed to the callback. -/
structure System where
  ring : RingState
  producer : Option Pending
  consumer : Poll
  accepted : List Accepted
  delivered : List (List UInt8)

inductive Event
  | call (c : WriteCall)
  | store
  | publish
  | sample
  | walk
  | copy
  | deliver
  | release
deriving DecidableEq

def System.initial (s : RingState) : System := ⟨s, none, .idle, [], []⟩

/-- The first half of a call: it drops at once, or goes on to its stores. -/
def System.begin (y : System) (c : WriteCall) : System :=
  match beginWrite y.ring c with
  | .error t => { y with ring := t }
  | .ok p => { y with producer := some p }

def System.store (y : System) (p : Pending) (st : Store) (rest : List Store) : System :=
  { y with
    ring := { y.ring with data := y.ring.data.put st }
    producer := some { p with stores := rest } }

def System.publish (y : System) (p : Pending) : System :=
  { y with
    ring := commitWrite y.ring p
    producer := none
    accepted := y.accepted ++ [p.accepted] }

/-- One turn of the loop, for `rp < wp`. -/
def System.walk (y : System) (wp rp : Nat) : System :=
  match pollTurn y.ring.data y.ring.dataSize rp with
  | .resync => { y with consumer := .walking wp wp }
  | .skip len => { y with consumer := .walking wp ((rp + len) % 2 ^ 64) }
  | .record len => { y with consumer := .reading wp rp len [] }

/-- The callback reads one more byte of the record at `rp`. -/
def System.copy (y : System) (wp rp len : Nat) (got : List UInt8) : System :=
  let off := (rp &&& (y.ring.dataSize - 1)) % 2 ^ 32
  { y with consumer := .reading wp rp len (got ++ [y.ring.data (off + got.length)]) }

def System.deliver (y : System) (wp rp len : Nat) (got : List UInt8) : System :=
  { y with consumer := .walking wp ((rp + len) % 2 ^ 64), delivered := y.delivered ++ [got] }

def System.release (y : System) (rp : Nat) : System :=
  { y with
    ring := { y.ring with header := { y.ring.header with readPos := rp } }
    consumer := .idle }

/-- One access of either party. The spin lock lets one call in at a time. -/
def System.step (y : System) : Event → Option System
  | .call c => if y.producer.isNone then some (y.begin c) else none
  | .store =>
    match y.producer with
    | some ⟨c, pl, sequence, st :: rest⟩ => some (y.store ⟨c, pl, sequence, st :: rest⟩ st rest)
    | _ => none
  | .publish =>
    match y.producer with
    | some ⟨c, pl, sequence, []⟩ => some (y.publish ⟨c, pl, sequence, []⟩)
    | _ => none
  | .sample =>
    match y.consumer with
    | .idle => some { y with consumer := .walking y.ring.header.writePos y.ring.header.readPos }
    | _ => none
  | .walk =>
    match y.consumer with
    | .walking wp rp => if rp < wp then some (y.walk wp rp) else none
    | _ => none
  | .copy =>
    match y.consumer with
    | .reading wp rp len got => if got.length < len then some (y.copy wp rp len got) else none
    | _ => none
  | .deliver =>
    match y.consumer with
    | .reading wp rp len got => if got.length < len then none else some (y.deliver wp rp len got)
    | _ => none
  | .release =>
    match y.consumer with
    | .walking wp rp => if rp < wp then none else some (y.release rp)
    | _ => none

/-- Everything a step can do. -/
inductive Step (y : System) : Event → System → Prop
  | call (c : WriteCall) (hp : y.producer = none) : Step y (.call c) (y.begin c)
  | store (p : Pending) (st : Store) (rest : List Store) (hp : y.producer = some p)
      (hst : p.stores = st :: rest) : Step y .store (y.store p st rest)
  | publish (p : Pending) (hp : y.producer = some p) (hst : p.stores = []) :
      Step y .publish (y.publish p)
  | sample (hc : y.consumer = .idle) : Step y .sample
      { y with consumer := .walking y.ring.header.writePos y.ring.header.readPos }
  | walk (wp rp : Nat) (hc : y.consumer = .walking wp rp) (hlt : rp < wp) :
      Step y .walk (y.walk wp rp)
  | copy (wp rp len : Nat) (got : List UInt8) (hc : y.consumer = .reading wp rp len got)
      (hlt : got.length < len) : Step y .copy (y.copy wp rp len got)
  | deliver (wp rp len : Nat) (got : List UInt8) (hc : y.consumer = .reading wp rp len got)
      (hle : len ≤ got.length) : Step y .deliver (y.deliver wp rp len got)
  | release (wp rp : Nat) (hc : y.consumer = .walking wp rp) (hle : wp ≤ rp) :
      Step y .release (y.release rp)

theorem System.step_cases {y z : System} {e : Event} (h : y.step e = some z) : Step y e z := by
  cases e <;> simp only [System.step] at h
  case call c =>
    split at h
    · obtain rfl := Option.some.inj h
      exact .call c (Option.isNone_iff_eq_none.mp (by assumption))
    · cases h
  case store =>
    split at h
    · obtain rfl := Option.some.inj h
      exact .store _ _ _ (by assumption) rfl
    · cases h
  case publish =>
    split at h
    · obtain rfl := Option.some.inj h
      exact .publish _ (by assumption) rfl
    · cases h
  case sample =>
    split at h
    · obtain rfl := Option.some.inj h
      exact .sample (by assumption)
    · cases h
  case walk =>
    split at h
    · split at h
      · obtain rfl := Option.some.inj h
        exact .walk _ _ (by assumption) (by assumption)
      · cases h
    · cases h
  case copy =>
    split at h
    · split at h
      · obtain rfl := Option.some.inj h
        exact .copy _ _ _ _ (by assumption) (by assumption)
      · cases h
    · cases h
  case deliver =>
    split at h
    · split at h
      · cases h
      · obtain rfl := Option.some.inj h
        exact .deliver _ _ _ _ (by assumption) (by omega)
    · cases h
  case release =>
    split at h
    · split at h
      · cases h
      · obtain rfl := Option.some.inj h
        exact .release _ _ (by assumption) (by omega)
    · cases h

/-- A record is delivered as it was read. -/
theorem System.step_deliver {y z : System} {wp rp len : Nat} {got : List UInt8}
    (hc : y.consumer = .reading wp rp len got) (h : y.step .deliver = some z) :
    len ≤ got.length ∧ z = y.deliver wp rp len got := by
  cases System.step_cases h with
  | deliver wp' rp' len' got' hc' hle =>
    obtain ⟨rfl, rfl, rfl, rfl⟩ : wp = wp' ∧ rp = rp' ∧ len = len' ∧ got = got' := by
      rw [hc] at hc'
      simpa using hc'
    exact ⟨hle, rfl⟩

/-! ### What a step leaves alone -/

@[simp] theorem System.begin_accepted (y : System) (c : WriteCall) :
    (y.begin c).accepted = y.accepted := by
  unfold System.begin
  split <;> rfl

@[simp] theorem System.begin_delivered (y : System) (c : WriteCall) :
    (y.begin c).delivered = y.delivered := by
  unfold System.begin
  split <;> rfl

@[simp] theorem System.begin_consumer (y : System) (c : WriteCall) :
    (y.begin c).consumer = y.consumer := by
  unfold System.begin
  split <;> rfl

@[simp] theorem System.walk_ring (y : System) (wp rp : Nat) : (y.walk wp rp).ring = y.ring := by
  unfold System.walk
  split <;> rfl

@[simp] theorem System.walk_producer (y : System) (wp rp : Nat) :
    (y.walk wp rp).producer = y.producer := by
  unfold System.walk
  split <;> rfl

@[simp] theorem System.walk_accepted (y : System) (wp rp : Nat) :
    (y.walk wp rp).accepted = y.accepted := by
  unfold System.walk
  split <;> rfl

@[simp] theorem System.walk_delivered (y : System) (wp rp : Nat) :
    (y.walk wp rp).delivered = y.delivered := by
  unfold System.walk
  split <;> rfl

/-- A call is accepted when it is published. -/
theorem accepted_step {y z : System} {e : Event} (hpublish : e ≠ .publish)
    (hstep : y.step e = some z) : z.accepted = y.accepted := by
  cases System.step_cases hstep with
  | call c hp => exact System.begin_accepted y c
  | publish p hp hst => exact absurd rfl hpublish
  | walk wp rp hc hlt => exact System.walk_accepted y wp rp
  | store p st rest hp hst => rfl
  | sample hc => rfl
  | copy wp rp len got hc hlt => rfl
  | deliver wp rp len got hc hle => rfl
  | release wp rp hc hle => rfl

theorem delivered_step {y z : System} {e : Event} (hdeliver : e ≠ .deliver)
    (hstep : y.step e = some z) : z.delivered = y.delivered := by
  cases System.step_cases hstep with
  | call c hp => exact System.begin_delivered y c
  | deliver wp rp len got hc hle => exact absurd rfl hdeliver
  | walk wp rp hc hlt => exact System.walk_delivered y wp rp
  | store p st rest hp hst => rfl
  | publish p hp hst => rfl
  | sample hc => rfl
  | copy wp rp len got hc hlt => rfl
  | release wp rp hc hle => rfl

end NetDebugger.Ring
