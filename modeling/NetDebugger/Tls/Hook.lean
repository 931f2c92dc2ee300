import NetDebugger.Tls.Keylog

/-! `knd_sslkeys.dll` inside lsass.  Any number of threads run through its hook at once and append to
its logs, one append at a time in one critical section. -/

namespace NetDebugger.Tls

open Lib

/-! ### What a call appends -/

/-- A key object, from its first byte on; `none` is an access violation. -/
abbrev KeyObject := Nat → Option UInt8

def KeyObject.read (key : KeyObject) (off : Nat) : Nat → Option (List UInt8)
  | 0 => some []
  | n + 1 => do
    let b ← key off
    let bs ← key.read (off + 1) n
    some (b :: bs)

inductive Log
  | keylog | calib | dbg
deriving DecidableEq

/-- The arguments of `Append`. -/
structure Append where
  path : Log
  text : List UInt8
deriving DecidableEq

/-- What is appended until the code returns, or faults. -/
structure Trace where
  appends : List Append
  returns : Bool

def Trace.andThen (a b : Trace) : Trace :=
  if a.returns then ⟨a.appends ++ b.appends, b.returns⟩ else a

/-- The dump of a key object. `%08x` of a word shows its last byte first. -/
def calibLine (magic first : List UInt8) : List UInt8 :=
  snprintf 420 (text "[calib] magic@+4=0x" ++ bytesToHex magic.reverse ++ text " first0x80=" ++
    bytesToHex first ++ text "\n")

def calibRandom (clientRand : List UInt8) : List UInt8 :=
  snprintf 160 (text "[calib] client_random=" ++ bytesToHex (clientRand.take 32) ++ text "\n")

/-- The calibration of `CaptureMasterKey`. -/
def calibration (key : KeyObject) (clientRand : Option (List UInt8)) : Trace :=
  match key.read 4 4, key.read 0 0x80 with
  | some magic, some first =>
    { appends := ⟨.calib, calibLine magic first⟩ :: match clientRand with
        | some cr => if cr.length > 0 then [⟨.calib, calibRandom cr⟩] else []
        | none => []
      returns := true }
  | _, _ => ⟨[], false⟩

/-- `CaptureMasterKey` behind the calibration. -/
def recording (key : KeyObject) (clientRand : Option (List UInt8)) : Trace :=
  match clientRand with
  | some cr =>
    if cr.length ≥ 32 then
      match key.read 0x1c 48 with
      | some secret => ⟨[⟨.keylog, captureLine (cr.take 32) secret⟩], true⟩
      | none => ⟨[], false⟩
    else ⟨[], true⟩
  | none => ⟨[], true⟩

def exceptionLine : List UInt8 :=
  text "[knd] exception during key capture (offset wrong? sehed)\n"

/-- The exception handler. -/
def Trace.handled (t : Trace) : List Append :=
  if t.returns then t.appends else t.appends ++ [⟨.dbg, exceptionLine⟩]

/-- `CaptureMasterKey` with the handler around it. -/
def hookAppends (calibrates : Bool) (key : KeyObject) (params : Option (List NCryptBuffer)) :
    List Append :=
  let clientRand := clientRandOf params
  ((if calibrates then calibration key clientRand else ⟨[], true⟩).andThen
    (recording key clientRand)).handled

/-- A call of `SslGenerateMasterKey`: what the hooked function returns, the key object at `*phMaster`
when there is one, and the parameters. -/
structure Call where
  rc : Int32
  master : Option KeyObject
  params : Option (List NCryptBuffer)

/-- How far `InstallThread` comes. -/
inductive Install
  | minHook | ncrypt | target | hook | hooked
deriving DecidableEq

def Install.message : Install → List UInt8
  | .minHook => text "[knd] MH_Initialize failed\n"
  | .ncrypt => text "[knd] ncrypt.dll not present\n"
  | .target => text "[knd] SslGenerateMasterKey not found\n"
  | .hook => text "[knd] hook install failed\n"
  | .hooked => text "[knd] SslGenerateMasterKey hooked - capturing TLS1.2 master secrets\n"

/-! ### The threads -/

/-- Where a thread is in `Append`: in front of the critical section, in it, and behind the file. -/
inductive Phase
  | waiting | inside | written
deriving DecidableEq

/-- A thread, which is away from the DLL, in front of `CaptureMasterKey`, or has `todo` to append. -/
inductive HookThread
  | away
  | called (c : Call)
  | appending (c : Option Call) (phase : Phase) (todo : List Append)

/-- A thread that has what is left to append. -/
def HookThread.next (c : Option Call) (todo : List Append) : HookThread :=
  if todo = [] then .away else .appending c .waiting todo

/-- The DLL, its three logs and the threads that come by. `owner` has entered `g_cs`. -/
structure Hook (Thread : Type) where
  hooked : Bool
  calib : Int32
  owner : Option Thread
  file : Log → List UInt8
  thread : Thread → HookThread

/-- What becomes of an append: the file does not open, is written in part, or in whole. -/
inductive Answer
  | refused
  | cut (n : Nat)
  | whole
deriving DecidableEq

def Answer.written : Answer → List UInt8 → List UInt8
  | .refused, _ => []
  | .cut n, s => s.take n
  | .whole, s => s

inductive HookEvent (Thread : Type)
  /-- `InstallThread`. -/
  | installs (t : Thread) (result : Install)
  /-- `KndUnhook`. -/
  | unhooks (t : Thread)
  /-- `Hook_SslGenerateMasterKey` up to the return of the hooked function. -/
  | calls (t : Thread) (c : Call)
  /-- `CaptureMasterKey` up to its first append, behind the increment of `g_calib`. -/
  | captures (t : Thread)
  | enters (t : Thread)
  | writes (t : Thread) (answer : Answer)
  | leaves (t : Thread)

variable {Thread : Type} [DecidableEq Thread]

def Hook.set (s : Hook Thread) (t : Thread) (th : HookThread) : Hook Thread :=
  { s with thread := Function.update s.thread t th }

def Hook.step (s : Hook Thread) : HookEvent Thread → Option (Hook Thread)
  | .installs t result =>
    match s.thread t with
    | .away =>
      some (({ s with hooked := s.hooked || result = Install.hooked }).set t
        (.appending none .waiting [⟨.dbg, result.message⟩]))
    | _ => none
  | .unhooks t =>
    match s.thread t with
    | .away =>
      some (({ s with hooked := false }).set t
        (.appending none .waiting [⟨.dbg, text "[knd] unhooked\n"⟩]))
    | _ => none
  | .calls t c =>
    match s.thread t, s.hooked with
    | .away, true => some (s.set t (.called c))
    | _, _ => none
  | .captures t =>
    match s.thread t with
    | .called c =>
      match if c.rc = 0 then c.master else none with
      | some key =>
        let calib := s.calib + 1
        some (({ s with calib }).set t (.next (some c) (hookAppends (calib ≤ 3) key c.params)))
      | none => some (s.set t .away)
    | _ => none
  | .enters t =>
    match s.thread t, s.owner with
    | .appending c .waiting todo, none =>
      some (({ s with owner := some t }).set t (.appending c .inside todo))
    | _, _ => none
  | .writes t answer =>
    match s.thread t with
    | .appending c .inside (a :: todo) =>
      some (({ s with
        file := Function.update s.file a.path (s.file a.path ++ answer.written a.text) }).set t
          (.appending c .written todo))
    | _ => none
  | .leaves t =>
    match s.thread t with
    | .appending c .written todo => some (({ s with owner := none }).set t (.next c todo))
    | _ => none

/-- The DLL as it is attached, next to the logs of earlier times. -/
def Hook.attached (file : Log → List UInt8) : Hook Thread where
  hooked := false
  calib := 0
  owner := none
  file := file
  thread := fun _ => .away

/-! ### Two threads -/

/-- A key object of 128 bytes. -/
def countingKey : KeyObject := fun i => if i < 0x80 then some (UInt8.ofNat i) else none

/-- A call with a client random of equal bytes. -/
def randomCall (b : UInt8) : Call :=
  ⟨0, some countingKey, some [⟨ncryptbufferSslClientRandom, some (List.replicate 32 b)⟩]⟩

/-- A thread appends `n` times. -/
def appended (t : Bool) (n : Nat) : List (HookEvent Bool) :=
  (List.replicate n [.enters t, .writes t .whole, .leaves t]).flatten

/-- Both threads come to the hook; one goes, and the other is about to write its first dump. -/
def twoThreads : List (HookEvent Bool) :=
  .installs false .hooked :: appended false 1 ++
    [.calls false (randomCall 1), .calls true (randomCall 2), .captures false, .captures true] ++
    appended true 3 ++ [.enters false]

end NetDebugger.Tls
