import NetDebugger.Proxy.Queue

/-! The threads of `KndMitmProxy`.  The interface starts and stops the proxy; `listenLoop` runs in a
thread of its own and starts one for each connection.  `stop` takes the flag, the socket and the list
of threads away, and joins; only the flag and the two mutexes order what the threads do meanwhile. -/

namespace NetDebugger.Proxy

open Lib

/-! ### The threads -/

/-- Where the thread of `listenLoop` is: in front of the flag, of the flag again behind `select`, of
`accept`, and of the new thread. `notJoinable` is a `listener_` without a thread. -/
inductive Listener
  | notJoinable
  | atHead
  | selecting
  | accepting
  | spawning
  | returned
deriving DecidableEq

/-- A connection thread: it counts itself in `active_`, takes a flow as the handler `i`, and returns
behind its last record. -/
inductive ConnThread
  | created
  | counted
  | handling (i : Nat)
  | returned (i : Nat)
deriving DecidableEq

/-- Whether a thread is counted in `active_`. -/
def ConnThread.isActive : ConnThread → Bool
  | .counted | .handling _ => true
  | .created | .returned _ => false

/-- Where the interface is in `stop`: behind the exchange, the closed socket, the joined listener and
the swapped list, of which `threads` are left to join. -/
inductive Owner
  | idle
  | closing
  | joiningListener
  | swapping
  | joining (threads : List Nat)
deriving DecidableEq

/-- The threads that `stop` still has to join. -/
def Owner.waits : Owner → List Nat
  | .joining threads => threads
  | _ => []

/-- `KndMitmProxy`. `threads` are all the connection threads so far, and `connThreads` the numbers of
those in `conn_threads_`. `terminated` is a thread assigned to a joinable one. -/
structure KndMitmProxy where
  running : Bool
  conns : UInt64
  active : UInt64
  listening : Bool
  listener : Listener
  connThreads : List Nat
  threads : List ConnThread
  owner : Owner
  mitm : Mitm
  terminated : Bool

def KndMitmProxy.fresh : KndMitmProxy where
  running := false
  conns := 0
  active := 0
  listening := false
  listener := .notJoinable
  connThreads := []
  threads := []
  owner := .idle
  mitm := .start
  terminated := false

inductive ProxyEvent
  /-- `start`, with what the CA and `mbedtls_net_bind` answer. -/
  | start (caReady bound : Bool)
  | stop
  /-- The next step of `stop`. -/
  | stopping
  /-- The next step of `listenLoop`, with the outcome of `select` or of `accept`. -/
  | listens (outcome : Bool)
  /-- The next step of a connection thread, in front of its handler. -/
  | begins (w : Nat)
  | handles (w : Nat) (e : HandlerEvent)
  | returns (w : Nat)
  | drain

/-- `KndMitmProxy::start`. -/
def KndMitmProxy.start (s : KndMitmProxy) (caReady bound : Bool) : KndMitmProxy :=
  if s.running || !caReady || !bound then s
  else
    { s with
      listening := true
      running := true
      listener := .atHead
      terminated := s.terminated || s.listener ≠ .notJoinable }

/-- The exchange in `KndMitmProxy::stop`. -/
def KndMitmProxy.stop (s : KndMitmProxy) : KndMitmProxy :=
  if s.running then { s with running := false, owner := .closing } else s

/-- `stop` behind the exchange. A join waits for a thread to return. -/
def KndMitmProxy.stopping (s : KndMitmProxy) : Option KndMitmProxy :=
  match s.owner with
  | .idle => none
  | .closing => some { s with listening := false, owner := .joiningListener }
  | .joiningListener =>
    match s.listener with
    | .notJoinable | .returned => some { s with listener := .notJoinable, owner := .swapping }
    | _ => none
  | .swapping => some { s with connThreads := [], owner := .joining s.connThreads }
  | .joining [] => some { s with owner := .idle }
  | .joining (w :: threads) =>
    match s.threads[w]? with
    | some (.returned _) => some { s with owner := .joining threads }
    | _ => none

/-- `KndMitmProxy::listenLoop`. A closed socket accepts nothing. -/
def KndMitmProxy.listenLoop (s : KndMitmProxy) (outcome : Bool) : Option KndMitmProxy :=
  match s.listener with
  | .notJoinable | .returned => none
  | .atHead => some { s with listener := if s.running then .selecting else .returned }
  | .selecting =>
    some { s with
      listener := if !s.running then .returned else if outcome then .accepting else .atHead }
  | .accepting =>
    if outcome && s.listening then some { s with conns := s.conns + 1, listener := .spawning }
    else some { s with listener := .atHead }
  | .spawning =>
    some { s with
      threads := s.threads ++ [.created]
      connThreads := s.connThreads ++ [s.threads.length]
      listener := .atHead }

/-- What a handler learns of the flag is the flag. -/
def HandlerEvent.reads (running : Bool) : HandlerEvent → Bool
  | .relays (.check r) => r == running
  | _ => true

def HandlerPhase.isFinished : HandlerPhase → Bool
  | .finished _ => true
  | _ => false

section

variable (utf8ToUtf16 : List UInt8 → List UInt16)

/-- `KndMitmProxy::handleConn` up to its flow. -/
def KndMitmProxy.begins (s : KndMitmProxy) (w : Nat) : Option KndMitmProxy :=
  match s.threads[w]? with
  | some .created => some { s with threads := s.threads.set w .counted, active := s.active + 1 }
  | some .counted => do
    let mitm ← s.mitm.step utf8ToUtf16 .accepted
    some { s with threads := s.threads.set w (.handling s.mitm.threads.members.length), mitm }
  | _ => none

def KndMitmProxy.handles (s : KndMitmProxy) (w : Nat) (e : HandlerEvent) : Option KndMitmProxy :=
  match s.threads[w]? with
  | some (.handling i) =>
    if e.reads s.running then
      (s.mitm.step utf8ToUtf16 (.thread i e)).map fun mitm => { s with mitm }
    else none
  | _ => none

/-- The end of `KndMitmProxy::handleConn`. -/
def KndMitmProxy.returns (s : KndMitmProxy) (w : Nat) : Option KndMitmProxy :=
  match s.threads[w]? with
  | some (.handling i) =>
    match s.mitm.threads.members[i]? with
    | some m =>
      if m.state.phase.isFinished then
        some { s with threads := s.threads.set w (.returned i), active := s.active - 1 }
      else none
    | none => none
  | _ => none

def KndMitmProxy.step (s : KndMitmProxy) : ProxyEvent → Option KndMitmProxy
  | .start caReady bound => if s.owner = .idle then some (s.start caReady bound) else none
  | .stop => if s.owner = .idle then some s.stop else none
  | .stopping => s.stopping
  | .listens outcome => s.listenLoop outcome
  | .begins w => s.begins utf8ToUtf16 w
  | .handles w e => s.handles utf8ToUtf16 w e
  | .returns w => s.returns w
  | .drain =>
    if s.owner = .idle then
      (s.mitm.step utf8ToUtf16 .drain).map fun mitm => { s with mitm }
    else none

end

end NetDebugger.Proxy
