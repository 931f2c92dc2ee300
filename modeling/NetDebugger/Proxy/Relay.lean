import NetDebugger.Lib.Runs
import NetDebugger.Proxy

/-! The relay loop of `handleConn`.  The TLS library decides what each read and each write returns;
whatever it returns, a direction carries the bytes that were read, as long as the loop does not read
on after a write that failed. -/

namespace NetDebugger.Proxy

open Lib

/-! ### The loop -/

/-- What `mbedtls_ssl_read` returns: bytes, one of the two WANT codes, or anything else. -/
inductive TlsRead
  | data (bytes : List UInt8)
  | want
  | failed
deriving DecidableEq

/-- What `mbedtls_ssl_write` returns. -/
inductive TlsWrite
  | wrote (n : Nat)
  | want
  | failed
deriving DecidableEq

inductive RelayEvent
  | check (running : Bool)
  | read (r : TlsRead) (now : UInt64)
  | write (w : TlsWrite)
deriving DecidableEq

/-- Where the loop is: at its head, in front of a read, or of a write of `buf + off`. -/
inductive RelayPhase
  | head
  | reading (dir : Dir)
  | writing (dir : Dir) (buf : List UInt8) (off : Nat)
  | ended
deriving DecidableEq

def Dir.code : Dir → UInt8
  | .outbound => kndDirOutbound
  | .inbound => kndDirInbound

/-- What has gone through the loop. `failedAt` keeps what had been read and handed over when a write
failed first. -/
structure Transcript where
  pushed : List (List UInt8)
  received : Dir → List UInt8
  handed : Dir → List UInt8
  failedAt : Dir → Option (List UInt8 × List UInt8)

structure Relay where
  phase : RelayPhase
  done : Bool
  transcript : Transcript

def Relay.start : Relay := ⟨.head, false, ⟨[], fun _ => [], fun _ => [], fun _ => none⟩⟩

/-- Behind the `for` loop of a direction. -/
def Relay.leave (s : Relay) : Dir → Relay
  | .outbound => { s with phase := if s.done then .ended else .reading .inbound }
  | .inbound => { s with phase := .head }

def Transcript.read (flow : UInt64) (x : Transcript) (dir : Dir) (bytes : List UInt8)
    (now : UInt64) : Transcript :=
  { x with
    pushed := x.pushed ++ [buildData flow (Dir.code dir) bytes now]
    received := Function.update x.received dir (x.received dir ++ bytes) }

def Transcript.wrote (x : Transcript) (dir : Dir) (bytes : List UInt8) : Transcript :=
  { x with handed := Function.update x.handed dir (x.handed dir ++ bytes) }

def Transcript.fail (x : Transcript) (dir : Dir) : Transcript :=
  { x with
    failedAt := Function.update x.failedAt dir
      (some ((x.failedAt dir).getD (x.received dir, x.handed dir))) }

def Relay.onCheck (s : Relay) (running : Bool) : Relay :=
  { s with phase := if !s.done && running then .reading .outbound else .ended }

/-- A write that fails ends the inner loop only. -/
def Relay.onFailedWrite (s : Relay) (dir : Dir) : Relay :=
  { phase := .reading dir, done := true, transcript := s.transcript.fail dir }

def Relay.onWrote (s : Relay) (dir : Dir) (buf : List UInt8) (off n : Nat) : Relay :=
  { s with
    phase := if off + n < buf.length then .writing dir buf (off + n) else .reading dir
    transcript := s.transcript.wrote dir ((buf.drop off).take n) }

def Relay.onRead (s : Relay) (flow : UInt64) (dir : Dir) (bytes : List UInt8) (now : UInt64) :
    Relay :=
  { s with
    phase := .writing dir bytes 0
    transcript := s.transcript.read flow dir bytes now }

/-- A step of the loop for the connection `flow`, where the library keeps to its lengths. -/
def Relay.step (flow : UInt64) (s : Relay) : RelayEvent → Option Relay
  | .check running =>
    match s.phase with
    | .head => some (s.onCheck running)
    | _ => none
  | .read r now =>
    match s.phase with
    | .reading dir =>
      match r with
      | .want => some (s.leave dir)
      | .failed => some ({ s with done := true }.leave dir)
      | .data bytes =>
        if 0 < bytes.length ∧ bytes.length ≤ relaySize then some (s.onRead flow dir bytes now)
        else none
    | _ => none
  | .write w =>
    match s.phase with
    | .writing dir buf off =>
      match w with
      | .want => some s
      | .failed => some (s.onFailedWrite dir)
      | .wrote n => if 0 < n ∧ off + n ≤ buf.length then some (s.onWrote dir buf off n) else none
    | _ => none

/-! ### What the loop is for -/

/-- The direction and the bytes of a DATA record. -/
def recordData (record : List UInt8) : Dir × List UInt8 :=
  let body := fun i => pointer record (sizeofKndRecord + i)
  let payload := KndDataPayload.read body
  (Dir.of payload.direction, readBytes body sizeofKndDataPayload payload.dataLength.toNat)

def Transcript.recorded (x : Transcript) (dir : Dir) : List UInt8 :=
  x.pushed.flatMap fun record => if (recordData record).1 = dir then (recordData record).2 else []

/-- Each direction carries the bytes that were read, and stops where a write failed. -/
structure Transcript.Faithful (x : Transcript) : Prop where
  recorded : ∀ dir, x.recorded dir = x.received dir
  handed : ∀ dir, x.handed dir <+: x.received dir
  stopped : ∀ dir r h, x.failedAt dir = some (r, h) →
    x.received dir = r ∧ x.recorded dir = r ∧ x.handed dir = h

/-! ### One record -/

@[simp] theorem Dir.of_code (dir : Dir) : Dir.of (Dir.code dir) = dir := by
  cases dir <;> decide

/-- The bytes that were read come back out of the record. -/
theorem recordData_buildData (flow : UInt64) (dir : Dir) {bytes : List UInt8} (now : UInt64)
    (hlen : bytes.length ≤ relaySize) :
    recordData (buildData flow (Dir.code dir) bytes now) = (dir, bytes) := by
  obtain ⟨-, hpayload, hdata, hlies⟩ := buildData_at flow (Dir.code dir) now hlen
  have hbytes : readBytes (fun i => pointer (buildData flow (Dir.code dir) bytes now)
      (sizeofKndRecord + i)) sizeofKndDataPayload bytes.length = bytes := by
    conv_rhs => rw [← show readBytes _ 0 bytes.length = bytes from hlies]
    refine readBytes_congr fun i _ => ?_
    rw [Nat.zero_add]
  unfold recordData
  simp only [hpayload]
  rw [hdata, hbytes]
  exact Prod.ext (Dir.of_code dir) rfl

theorem Transcript.read_recorded (flow : UInt64) (x : Transcript) (dir : Dir) {bytes : List UInt8}
    (now : UInt64) (hlen : bytes.length ≤ relaySize) (dir' : Dir) :
    (x.read flow dir bytes now).recorded dir' =
      x.recorded dir' ++ if dir = dir' then bytes else [] := by
  simp [Transcript.recorded, Transcript.read, recordData_buildData flow dir now hlen]

/-! ### One step -/

@[simp] theorem Relay.leave_done (s : Relay) (dir : Dir) : (s.leave dir).done = s.done := by
  cases dir <;> rfl

@[simp] theorem Relay.leave_transcript (s : Relay) (dir : Dir) :
    (s.leave dir).transcript = s.transcript := by
  cases dir <;> rfl

/-- Only the other direction is read next, and that while nothing has failed. -/
theorem Relay.leave_reading {s : Relay} {dir dir' : Dir}
    (h : (s.leave dir).phase = .reading dir') : s.done = false := by
  cases dir with
  | outbound =>
    by_contra hdone
    simp [Relay.leave, Bool.eq_true_of_not_eq_false hdone] at h
  | inbound => simp [Relay.leave] at h

theorem Relay.leave_writing (s : Relay) (dir dir' : Dir) (buf : List UInt8) (off : Nat) :
    (s.leave dir).phase ≠ .writing dir' buf off := by
  cases dir with
  | outbound =>
    unfold Relay.leave
    dsimp only
    split <;> simp
  | inbound => simp [Relay.leave]

/-- The steps of the loop. -/
inductive Relay.Takes (flow : UInt64) (s : Relay) : RelayEvent → Relay → Prop
  | check {running : Bool} (hphase : s.phase = .head) :
      Takes flow s (.check running) (s.onCheck running)
  | readWant {dir : Dir} {now : UInt64} (hphase : s.phase = .reading dir) :
      Takes flow s (.read .want now) (s.leave dir)
  | readFailed {dir : Dir} {now : UInt64} (hphase : s.phase = .reading dir) :
      Takes flow s (.read .failed now) ({ s with done := true }.leave dir)
  | readData {dir : Dir} {bytes : List UInt8} {now : UInt64} (hphase : s.phase = .reading dir)
      (hpos : 0 < bytes.length) (hlen : bytes.length ≤ relaySize) :
      Takes flow s (.read (.data bytes) now) (s.onRead flow dir bytes now)
  | writeWant {dir : Dir} {buf : List UInt8} {off : Nat} (hphase : s.phase = .writing dir buf off) :
      Takes flow s (.write .want) s
  | writeFailed {dir : Dir} {buf : List UInt8} {off : Nat}
      (hphase : s.phase = .writing dir buf off) :
      Takes flow s (.write .failed) (s.onFailedWrite dir)
  | wrote {dir : Dir} {buf : List UInt8} {off n : Nat} (hphase : s.phase = .writing dir buf off)
      (hlen : off + n ≤ buf.length) :
      Takes flow s (.write (.wrote n)) (s.onWrote dir buf off n)

theorem Relay.step_takes {flow : UInt64} {s t : Relay} {e : RelayEvent}
    (h : s.step flow e = some t) : s.Takes flow e t := by
  cases e with
  | check running =>
    cases hphase : s.phase <;> simp only [Relay.step, hphase, reduceCtorEq, Option.some.injEq] at h
    subst h
    exact .check hphase
  | read r now =>
    cases hphase : s.phase <;> simp only [Relay.step, hphase, reduceCtorEq] at h
    cases r with
    | data bytes =>
      obtain ⟨⟨hpos, hlen⟩, heq⟩ := Option.ite_none_right_eq_some.mp h
      obtain rfl := Option.some.inj heq
      exact .readData hphase hpos hlen
    | want =>
      obtain rfl := Option.some.inj h
      exact .readWant hphase
    | failed =>
      obtain rfl := Option.some.inj h
      exact .readFailed hphase
  | write w =>
    cases hphase : s.phase <;> simp only [Relay.step, hphase, reduceCtorEq] at h
    cases w with
    | wrote n =>
      obtain ⟨⟨-, hlen⟩, heq⟩ := Option.ite_none_right_eq_some.mp h
      obtain rfl := Option.some.inj heq
      exact .wrote hphase hlen
    | want =>
      obtain rfl := Option.some.inj h
      exact .writeWant hphase
    | failed =>
      obtain rfl := Option.some.inj h
      exact .writeFailed hphase

/-! ### The state of the loop -/

/-- While nothing has failed, a direction has handed over what was read, but for the rest of the
buffer that is being written. -/
structure Relay.Wf (s : Relay) : Prop where
  writing : ∀ dir buf off, s.phase = .writing dir buf off →
    s.done = false ∧ s.transcript.handed dir ++ buf.drop off = s.transcript.received dir
  idle : s.done = false → ∀ dir, (∀ buf off, s.phase ≠ .writing dir buf off) →
    s.transcript.handed dir = s.transcript.received dir
  fresh : s.done = false → ∀ dir, s.transcript.failedAt dir = none
  failed : ∀ dir, s.phase = .reading dir → s.done = true → s.transcript.failedAt dir ≠ none

/-- No bytes are read once the loop is done. -/
def Relay.Stops (s : Relay) (e : RelayEvent) : Prop :=
  ∀ bytes now, e = .read (.data bytes) now → s.done = false

theorem start_wf : Relay.start.Wf where
  writing := fun _ _ _ h => by cases h
  idle := fun _ _ _ => rfl
  fresh := fun _ _ => rfl
  failed := fun _ h => by cases h

section

variable {flow : UInt64} {s t : Relay} {e : RelayEvent}

/-- A phase outside of a write leaves the transcript. -/
theorem Relay.Wf.leave (hs : s.Wf) {dir : Dir} (hphase : s.phase = .reading dir) (dir' : Dir) :
    (s.leave dir').Wf where
  writing dir'' buf off h := absurd h (s.leave_writing dir' dir'' buf off)
  idle hdone dir'' _ := by
    rw [Relay.leave_done] at hdone
    rw [Relay.leave_transcript]
    exact hs.idle hdone dir'' (by rw [hphase]; simp)
  fresh hdone := by
    rw [Relay.leave_done] at hdone
    rw [Relay.leave_transcript]
    exact hs.fresh hdone
  failed dir'' h hdone := by
    rw [Relay.leave_done, Relay.leave_reading h] at hdone
    cases hdone

theorem Relay.Wf.wrote (hs : s.Wf) {dir : Dir} {buf : List UInt8} {off n : Nat}
    (hphase : s.phase = .writing dir buf off) (hlen : off + n ≤ buf.length) :
    (s.onWrote dir buf off n).Wf := by
  obtain ⟨hdone, hrest⟩ := hs.writing dir buf off hphase
  have hsplit : buf.drop off = (buf.drop off).take n ++ buf.drop (off + n) := by
    rw [← List.drop_drop, List.take_append_drop]
  rw [hsplit, ← List.append_assoc] at hrest
  constructor
  case writing =>
    intro dir' buf' off' h
    refine ⟨hdone, ?_⟩
    unfold Relay.onWrote at h ⊢
    dsimp only at h
    split at h
    · obtain ⟨rfl, rfl, rfl⟩ := RelayPhase.writing.inj h
      simpa only [Transcript.wrote, Function.update_self] using hrest
    · cases h
  case idle =>
    intro _ dir' hidle
    by_cases hdir : dir' = dir
    · subst hdir
      have hend : ¬off + n < buf.length := fun hlt => hidle buf (off + n) (if_pos hlt)
      rw [List.drop_eq_nil_of_le (show buf.length ≤ off + n by omega), List.append_nil] at hrest
      simpa only [Relay.onWrote, Transcript.wrote, Function.update_self] using hrest
    · have hother := hs.idle hdone dir' fun buf' off' h => hdir (by
        rw [hphase] at h
        exact (RelayPhase.writing.inj h).1.symm)
      simpa only [Relay.onWrote, Transcript.wrote, Function.update_of_ne hdir] using hother
  case fresh => exact hs.fresh
  case failed =>
    intro dir' _ h
    rw [show (s.onWrote dir buf off n).done = s.done from rfl, hdone] at h
    cases h

/-- A loop that is done does not write. -/
theorem wf_of_done (hdone : t.done = true)
    (hwriting : ∀ dir buf off, t.phase ≠ .writing dir buf off)
    (hfailed : ∀ dir, t.phase = .reading dir → t.transcript.failedAt dir ≠ none) : t.Wf where
  writing dir buf off h := absurd h (hwriting dir buf off)
  idle h := by rw [hdone] at h; cases h
  fresh h := by rw [hdone] at h; cases h
  failed dir h _ := hfailed dir h

theorem Relay.Wf.read (hs : s.Wf) (hdone : s.done = false) {dir : Dir}
    (hphase : s.phase = .reading dir) (bytes : List UInt8) (now : UInt64) :
    (s.onRead flow dir bytes now).Wf := by
  have hidle (dir' : Dir) := hs.idle hdone dir' (by rw [hphase]; simp)
  constructor
  case writing =>
    intro dir' buf off h
    obtain ⟨rfl, rfl, rfl⟩ := RelayPhase.writing.inj h
    refine ⟨hdone, ?_⟩
    simp only [Relay.onRead, Transcript.read, Function.update_self, List.drop_zero, hidle]
  case idle =>
    intro _ dir' hother
    have hne : dir' ≠ dir := by
      rintro rfl
      exact hother bytes 0 rfl
    simp only [Relay.onRead, Transcript.read, Function.update_of_ne hne, hidle]
  case fresh => exact hs.fresh
  case failed => exact fun dir' h => by cases h

/-- The loop keeps its state, if it stops where it should. -/
theorem Relay.Wf.step (hs : s.Wf) (hstops : s.Stops e) (h : s.Takes flow e t) : t.Wf := by
  cases h with
  | check hphase =>
    have hidle : ∀ dir buf off, s.phase ≠ .writing dir buf off := by
      intro dir buf off
      rw [hphase]
      simp
    constructor
    case writing =>
      intro dir buf off h
      unfold Relay.onCheck at h
      dsimp only at h
      split at h <;> cases h
    case idle => exact fun hdone dir _ => hs.idle hdone dir (hidle dir)
    case fresh => exact hs.fresh
    case failed =>
      intro dir h (hdone : s.done = true)
      simp [Relay.onCheck, hdone] at h
  | readWant hphase => exact hs.leave hphase _
  | readFailed hphase =>
    apply wf_of_done
    · exact Relay.leave_done ..
    · exact fun dir' buf off => Relay.leave_writing _ _ dir' buf off
    · intro dir h
      cases Relay.leave_reading h
  | readData hphase hpos hlen => exact hs.read (hstops _ _ rfl) hphase _ _
  | writeWant hphase => exact hs
  | @writeFailed dir buf off hphase =>
    apply wf_of_done
    · rfl
    · exact fun dir' buf' off' h => by cases h
    · intro dir' h
      obtain rfl := RelayPhase.reading.inj h
      simp [Relay.onFailedWrite, Transcript.fail]
  | wrote hphase hlen => exact hs.wrote hphase hlen

/-! ### The transcript -/

/-- What is read after a failed write is what must not be read. -/
theorem read_faithful_iff (hs : s.Wf) (hx : s.transcript.Faithful) {dir : Dir}
    (hphase : s.phase = .reading dir) {bytes : List UInt8} {now : UInt64} (hpos : 0 < bytes.length)
    (hlen : bytes.length ≤ relaySize) :
    (s.transcript.read flow dir bytes now).Faithful ↔ s.done = false := by
  constructor
  · intro hread
    by_contra hdone
    obtain ⟨⟨r, h⟩, hfailed⟩ := Option.ne_none_iff_exists'.mp
      (hs.failed dir hphase (Bool.eq_true_of_not_eq_false hdone))
    obtain ⟨hbefore, -, -⟩ := hx.stopped dir r h hfailed
    obtain ⟨hafter, -, -⟩ := hread.stopped dir r h hfailed
    simp only [Transcript.read, Function.update_self] at hafter
    rw [hbefore, List.append_right_eq_self] at hafter
    rw [hafter] at hpos
    exact Nat.lt_irrefl 0 hpos
  · intro hdone
    have hrecorded (dir' : Dir) : (s.transcript.read flow dir bytes now).recorded dir' =
        (s.transcript.read flow dir bytes now).received dir' := by
      rw [Transcript.read_recorded flow _ dir now hlen, hx.recorded]
      by_cases hdir : dir = dir'
      · subst hdir
        simp only [Transcript.read, if_true, Function.update_self]
      · simp only [Transcript.read, if_neg hdir, List.append_nil,
          Function.update_of_ne (Ne.symm hdir)]
    refine ⟨hrecorded, ?_, ?_⟩
    · intro dir'
      apply (hx.handed dir').trans
      by_cases hdir : dir' = dir
      · subst hdir
        simp only [Transcript.read, Function.update_self]
        exact List.prefix_append ..
      · simp only [Transcript.read, Function.update_of_ne hdir]
        exact List.prefix_refl _
    · intro dir' r h hfailed
      cases (hs.fresh hdone dir').symm.trans hfailed

theorem wrote_faithful (hs : s.Wf) (hx : s.transcript.Faithful) {dir : Dir} {buf : List UInt8}
    {off n : Nat} (hphase : s.phase = .writing dir buf off) :
    (s.transcript.wrote dir ((buf.drop off).take n)).Faithful := by
  obtain ⟨hdone, hrest⟩ := hs.writing dir buf off hphase
  refine ⟨hx.recorded, ?_, ?_⟩
  · intro dir'
    by_cases hdir : dir' = dir
    · subst hdir
      simp only [Transcript.wrote, Function.update_self]
      rw [← hrest]
      exact (List.prefix_append_right_inj _).mpr (List.take_prefix ..)
    · simp only [Transcript.wrote, Function.update_of_ne hdir]
      exact hx.handed dir'
  · intro dir' r h hfailed
    cases (hs.fresh hdone dir').symm.trans hfailed

theorem fail_faithful (hs : s.Wf) (hx : s.transcript.Faithful) {dir : Dir} {buf : List UInt8}
    {off : Nat} (hphase : s.phase = .writing dir buf off) : (s.transcript.fail dir).Faithful := by
  obtain ⟨hdone, -⟩ := hs.writing dir buf off hphase
  refine ⟨hx.recorded, hx.handed, ?_⟩
  intro dir' r h hfailed
  by_cases hdir : dir' = dir
  · subst hdir
    simp only [Transcript.fail, Function.update_self, hs.fresh hdone, Option.getD_none,
      Option.some.injEq, Prod.mk.injEq] at hfailed
    obtain ⟨rfl, rfl⟩ := hfailed
    exact ⟨rfl, hx.recorded dir', rfl⟩
  · simp only [Transcript.fail, Function.update_of_ne hdir] at hfailed
    exact hx.stopped dir' r h hfailed

/-- A step keeps the transcript faithful exactly when it stops where it should. -/
theorem step_faithful_iff (hs : s.Wf) (hx : s.transcript.Faithful) (h : s.Takes flow e t) :
    t.transcript.Faithful ↔ s.Stops e := by
  have hother (hne : ∀ bytes now, e ≠ .read (.data bytes) now) : s.Stops e :=
    fun bytes now he => absurd he (hne bytes now)
  cases h with
  | check hphase => exact iff_of_true hx (hother (by simp))
  | readWant hphase => exact iff_of_true (by rwa [Relay.leave_transcript]) (hother (by simp))
  | readFailed hphase => exact iff_of_true (by rwa [Relay.leave_transcript]) (hother (by simp))
  | readData hphase hpos hlen =>
    refine (read_faithful_iff hs hx hphase hpos hlen).trans ⟨fun hdone _ _ _ => hdone, fun h => ?_⟩
    exact h _ _ rfl
  | writeWant hphase => exact iff_of_true hx (hother (by simp))
  | writeFailed hphase => exact iff_of_true (fail_faithful hs hx hphase) (hother (by simp))
  | wrote hphase hlen => exact iff_of_true (wrote_faithful hs hx hphase) (hother (by simp))

/-! ### Runs -/

theorem runEvents_wf {es : List RelayEvent} (hes : EachStep (Relay.step flow) Relay.Stops s es)
    (hs : s.Wf) (hrun : runEvents (Relay.step flow) s es = some t) : t.Wf :=
  runEvents_invariant_of (fun _ _ _ hstops hs h => hs.step hstops (Relay.step_takes h)) hs hes hrun

/-- The loop reads on after a failure only where a write has just failed. -/
theorem failed_before_reading (hs : s.Wf) (h : s.Takes flow e t) {dir : Dir}
    (hphase : t.phase = .reading dir) (hdone : t.done = true) : e = .write .failed := by
  cases h with
  | @check running hhead =>
    have hdone' : s.done = true := hdone
    simp [Relay.onCheck, hdone'] at hphase
  | readWant =>
    rw [Relay.leave_done, Relay.leave_reading hphase] at hdone
    cases hdone
  | readFailed => cases Relay.leave_reading hphase
  | readData => cases hphase
  | writeWant hwriting =>
    rw [hwriting] at hphase
    cases hphase
  | writeFailed => rfl
  | wrote hwriting =>
    have hdone' : s.done = true := hdone
    rw [(hs.writing _ _ _ hwriting).1] at hdone'
    cases hdone'

theorem reading_of_data {bytes : List UInt8} {now : UInt64}
    (h : s.Takes flow (.read (.data bytes) now) t) : ∃ dir, s.phase = .reading dir := by
  cases h with
  | readData hphase => exact ⟨_, hphase⟩

/-- Every step stops where it should exactly when no bytes are read right after a failed write. -/
theorem eachStep_stops_iff {es : List RelayEvent}
    (hrun : runEvents (Relay.step flow) .start es = some t) :
    EachStep (Relay.step flow) Relay.Stops .start es ↔
      ∀ bytes now, ¬[.write .failed, .read (.data bytes) now] <:+: es := by
  constructor
  · rintro heach bytes now ⟨u, v, hes⟩
    have hpre : (u ++ [.write .failed]) ++ [.read (.data bytes) now] <+: es :=
      ⟨v, by rw [← hes]; simp⟩
    obtain ⟨m, hm, -⟩ : ∃ m, runEvents (Relay.step flow) .start (u ++ [.write .failed]) = some m ∧
        runEvents (Relay.step flow) m (.read (.data bytes) now :: v) = some t := by
      apply runEvents_append.mp
      rw [← hrun, ← hes]
      simp
    obtain ⟨m', -, hlast⟩ := runEvents_append.mp hm
    obtain ⟨m'', hstep, hnil⟩ := runEvents_cons.mp hlast
    obtain rfl := Option.some.inj hnil
    have hstops := eachStep_iff.mp heach _ _ _ hpre hm bytes now rfl
    cases Relay.step_takes hstep with
    | writeFailed => cases hstops
  · intro hno
    induction es using List.reverseRecOn generalizing t with
    | nil => trivial
    | append_singleton es e ih =>
      obtain ⟨m, hm, hlast⟩ := runEvents_append.mp hrun
      have heach := ih hm fun bytes now h => hno bytes now (h.trans (List.infix_append' [] es [e]))
      refine eachStep_append.mpr ⟨heach, fun m' hm' => ⟨?_, fun _ _ => trivial⟩⟩
      obtain rfl := Option.some.inj (hm.symm.trans hm')
      rintro bytes now rfl
      by_contra hdone
      obtain ⟨u, hstep, -⟩ := runEvents_cons.mp hlast
      obtain ⟨dir, hphase⟩ := reading_of_data (Relay.step_takes hstep)
      -- the event in front of this read is the failed write
      rcases List.eq_nil_or_concat es with rfl | ⟨es', e', rfl⟩
      · obtain rfl := Option.some.inj hm
        exact hdone rfl
      · rw [List.concat_eq_append] at *
        obtain ⟨k, hk, hlast'⟩ := runEvents_append.mp hm
        obtain ⟨m', hstep', hnil⟩ := runEvents_cons.mp hlast'
        obtain rfl := Option.some.inj hnil
        have hwf := runEvents_wf (eachStep_append.mp heach).1 start_wf hk
        obtain rfl := failed_before_reading hwf (Relay.step_takes hstep') hphase
          (Bool.eq_true_of_not_eq_false hdone)
        exact hno bytes now ⟨es', [], by simp⟩

end

/-- In every state of a run each direction carries what was read, and stops where a write failed,
exactly when no read that follows a failed write returns bytes. -/
theorem relay_faithful_iff (flow : UInt64) {es : List RelayEvent} {t : Relay}
    (hrun : runEvents (Relay.step flow) .start es = some t) :
    (∀ pre m, pre <+: es → runEvents (Relay.step flow) .start pre = some m →
        m.transcript.Faithful) ↔
      ∀ bytes now, ¬[.write .failed, .read (.data bytes) now] <:+: es := by
  rw [← eachStep_stops_iff hrun]
  apply @runEvents_invariant_iff_with _ _ _ Relay.Stops Relay.Wf fun s => s.transcript.Faithful
  · exact fun s e t hs hstops h => hs.step hstops (Relay.step_takes h)
  · exact fun s e t hs hx h => step_faithful_iff hs hx (Relay.step_takes h)
  · exact start_wf
  · exact ⟨fun _ => rfl, fun _ => List.prefix_refl _, fun _ _ _ h => by cases h⟩
  · exact hrun

/-- Two bytes that are written one by one, with a retry. Of the next two one is not written, and there
is nothing more to read. -/
def partialWrites : List RelayEvent :=
  [.check true, .read (.data (text "ab")) 0, .write (.wrote 1), .write .want, .write (.wrote 1),
    .read .want 0, .read .want 0, .check true, .read (.data (text "cd")) 0, .write (.wrote 1),
    .write .failed, .read .want 0]

theorem relay_faithful_iff_partial :
    ((∀ pre m, pre <+: partialWrites → runEvents (Relay.step 1) .start pre = some m →
        m.transcript.Faithful) ↔
      ∀ bytes now, ¬[.write .failed, .read (.data bytes) now] <:+: partialWrites) ∧
    ∀ bytes now, ¬[.write .failed, .read (.data bytes) now] <:+: partialWrites := by
  refine ⟨@relay_faithful_iff 1 partialWrites _ rfl, fun bytes now h => ?_⟩
  simp [partialWrites, List.infix_cons_iff] at h

/-- A write fails, and the loop reads and writes on. -/
def readsOn : List RelayEvent :=
  [.check true, .read (.data (text "a")) 0, .write .failed, .read (.data (text "b")) 0,
    .write (.wrote 1)]

theorem relay_reads_on : ∃ m, runEvents (Relay.step 1) .start readsOn = some m ∧
    m.transcript.failedAt .outbound = some (text "a", []) ∧
    m.transcript.received .outbound = text "ab" ∧ m.transcript.handed .outbound = text "b" ∧
    ¬m.transcript.Faithful := by
  refine ⟨_, rfl, rfl, rfl, rfl, fun hx => ?_⟩
  have hprefix : text "b" <+: text "ab" := hx.handed .outbound
  exact absurd hprefix (by decide)

end NetDebugger.Proxy
