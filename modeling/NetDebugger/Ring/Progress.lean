import NetDebugger.Ring.Channel

/-! A call and a poll that nothing interrupts.  A poll ends: from every state that the system can
reach, steps of the consumer alone bring it to its end, past everything that it sampled. -/

namespace NetDebugger.Ring

open Lib

/-! ### A call -/

theorem call_dropped {y : System} {c : WriteCall} {t : RingState} (hidle : y.producer = none)
    (h : beginWrite y.ring c = .error t) : y.step (.call c) = some { y with ring := t } := by
  simp [System.step, System.begin, hidle, h]

/-- A call with room for its record makes its stores one by one. -/
theorem call_accepted {y : System} {c : WriteCall} {p : Pending} (hidle : y.producer = none)
    (h : beginWrite y.ring c = .ok p) :
    runEvents System.step y (.call c :: List.replicate p.stores.length .store ++ [.publish]) =
      some { y with
        ring := commitWrite { y.ring with data := y.ring.data.putAll p.stores } p
        accepted := y.accepted ++ [p.accepted] } := by
  have hstores : ∀ (ss : List Store) (x : System),
      runEvents System.step { x with producer := some { p with stores := ss } }
        (List.replicate ss.length .store ++ [.publish]) =
      some { x with
        ring := commitWrite { x.ring with data := x.ring.data.putAll ss } p
        producer := none
        accepted := x.accepted ++ [p.accepted] } := by
    intro ss
    induction ss with
    | nil => exact fun x => rfl
    | cons st ss ih =>
      intro x
      exact ih { x with ring := { x.ring with data := x.ring.data.put st } }
  have hstep : y.step (.call c) = some { y with producer := some p } := by
    simp [System.step, System.begin, hidle, h]
  rw [List.cons_append]
  exact runEvents_cons.mpr ⟨_, hstep, (hstores p.stores y).trans (by rw [hidle])⟩

/-- A call that nothing interrupts is `KndRingWrite` as one function. -/
theorem call_run {y : System} {c : WriteCall} (hidle : y.producer = none) :
    (∃ t, kndRingWrite y.ring c = (t, false) ∧ y.step (.call c) = some { y with ring := t }) ∨
    ∃ t n a, kndRingWrite y.ring c = (t, true) ∧ a.call = c ∧
      runEvents System.step y (.call c :: List.replicate n .store ++ [.publish]) =
        some { y with ring := t, accepted := y.accepted ++ [a] } := by
  rw [kndRingWrite]
  cases hbegin : beginWrite y.ring c with
  | error t => exact .inl ⟨t, rfl, call_dropped hidle hbegin⟩
  | ok p =>
    refine .inr ⟨_, p.stores.length, p.accepted, rfl, ?_, call_accepted hidle hbegin⟩
    rw [beginWrite] at hbegin
    split at hbegin
    · cases hbegin
    · obtain rfl := Except.ok.inj hbegin
      exact Pending.of_call ..

/-! ### A poll -/

/-- The events of the consumer. -/
def Event.Consumer (e : Event) : Prop :=
  e = .sample ∨ e = .walk ∨ e = .copy ∨ e = .deliver ∨ e = .release

/-- What the consumer's steps leave alone. -/
structure SameProducer (y z : System) : Prop where
  producer : z.producer = y.producer
  accepted : z.accepted = y.accepted
  writePos : z.ring.header.writePos = y.ring.header.writePos
  droppedRecords : z.ring.header.droppedRecords = y.ring.header.droppedRecords

theorem SameProducer.refl (y : System) : SameProducer y y := ⟨rfl, rfl, rfl, rfl⟩

theorem SameProducer.trans {x y z : System} (hxy : SameProducer x y) (hyz : SameProducer y z) :
    SameProducer x z :=
  ⟨hyz.producer.trans hxy.producer, hyz.accepted.trans hxy.accepted,
    hyz.writePos.trans hxy.writePos, hyz.droppedRecords.trans hxy.droppedRecords⟩

/-- The state `z` is reached from `y` by the consumer alone. -/
def ConsumerRun (y z : System) : Prop :=
  ∃ es, (∀ e ∈ es, e.Consumer) ∧ runEvents System.step y es = some z ∧ SameProducer y z

theorem ConsumerRun.refl (y : System) : ConsumerRun y y :=
  ⟨[], by simp, rfl, SameProducer.refl y⟩

theorem ConsumerRun.cons {x y z : System} {e : Event} (he : e.Consumer) (h : x.step e = some y)
    (hsame : SameProducer x y) (hrun : ConsumerRun y z) : ConsumerRun x z := by
  obtain ⟨es, hes, hrest, hsame'⟩ := hrun
  refine ⟨e :: es, ?_, runEvents_cons.mpr ⟨y, h, hrest⟩, hsame.trans hsame'⟩
  intro f hf
  rcases List.mem_cons.mp hf with rfl | hf
  · exact he
  · exact hes f hf

/-- A turn of the loop moves on, or starts to read a record that ends before the sampled position. -/
theorem walk_progress {D : Nat} {y : System} {wp rp : Nat} (hD : RingSize D) (hinv : Inv D y)
    (hc : y.consumer = .walking wp rp) (hlt : rp < wp) :
    (∃ rp', rp < rp' ∧ y.walk wp rp = { y with consumer := .walking wp rp' }) ∨
    ∃ len, 0 < len ∧ rp + len ≤ wp ∧ wp < 2 ^ 64 ∧
      y.walk wp rp = { y with consumer := .reading wp rp len [] } := by
  obtain ⟨cur, h⟩ := hinv
  have honRing := h.onRing
  have hok := h.consumer
  rw [hc] at honRing hok
  obtain ⟨x, rest, rfl, hfits, hlies, -, hle, -⟩ := Boundary.cons hok hlt honRing
  have hturn := pollTurn_piece hD hfits hlies
  have hlow := hfits.low
  have hwp := hok.1
  rw [System.walk, h.size, hturn]
  cases x with
  | pad c len sequence =>
    simp only [Piece.len] at hle hlow
    refine .inl ⟨rp + len, by omega, ?_⟩
    simp only [Piece.turn]
    rw [Nat.mod_eq_of_lt (by omega)]
  | record a =>
    simp only [Piece.len] at hle hlow
    exact .inr ⟨a.place.recLen, by omega, hle, hwp, rfl⟩

/-- The callback reads its record to the end. -/
theorem copy_run {wp rp len : Nat} : ∀ (n : Nat) {y : System} {got : List UInt8},
    y.consumer = .reading wp rp len got → len ≤ got.length + n →
    ∃ got', len ≤ got'.length ∧ ConsumerRun y { y with consumer := .reading wp rp len got' } := by
  intro n
  induction n with
  | zero =>
    intro y got hc hle
    refine ⟨got, by omega, ?_⟩
    rw [← hc]
    exact ConsumerRun.refl y
  | succ n ih =>
    intro y got hc hle
    by_cases hlt : got.length < len
    · have hstep : y.step .copy = some (y.copy wp rp len got) := by
        simp only [System.step, hc, if_pos hlt]
      obtain ⟨got', hgot', hrun⟩ := ih (y := y.copy wp rp len got) rfl (by
        rw [List.length_append, List.length_singleton]
        omega)
      exact ⟨got', hgot', ConsumerRun.cons (.inr (.inr (.inl rfl))) hstep ⟨rfl, rfl, rfl, rfl⟩ hrun⟩
    · refine ⟨got, by omega, ?_⟩
      rw [← hc]
      exact ConsumerRun.refl y

theorem consumer_inv {D : Nat} {y z : System} (hD : RingSize D) (hinv : Inv D y)
    (hrun : ConsumerRun y z) : Inv D z := by
  obtain ⟨es, hes, hrun, -⟩ := hrun
  refine runEvents_invariant (fun e => e.Consumer) (fun s e t he hs ht => ?_) hinv hes hrun
  refine (step_refines hD (fun c hc => ?_) hs ht).1
  subst hc
  rcases he with he | he | he | he | he <;> cases he

theorem ConsumerRun.trans {x y z : System} (hxy : ConsumerRun x y) (hyz : ConsumerRun y z) :
    ConsumerRun x z := by
  obtain ⟨es, hes, hrun, hsame⟩ := hxy
  obtain ⟨fs, hfs, hrun', hsame'⟩ := hyz
  refine ⟨es ++ fs, ?_, runEvents_append.mpr ⟨y, hrun, hrun'⟩, hsame.trans hsame'⟩
  intro e he
  rcases List.mem_append.mp he with he | he
  · exact hes e he
  · exact hfs e he

/-- The running poll comes to its end. -/
theorem walk_run {D wp : Nat} (hD : RingSize D) : ∀ (n : Nat) {y : System} {rp : Nat}, Inv D y →
    y.consumer = .walking wp rp → wp ≤ rp + n →
    ∃ z, ConsumerRun y z ∧ z.consumer = .idle ∧ wp ≤ z.ring.header.readPos := by
  intro n
  induction n with
  | zero =>
    intro y rp hinv hc hle
    have hstep : y.step .release = some (y.release rp) := by
      simp only [System.step, hc, if_neg (show ¬rp < wp by omega)]
    refine ⟨y.release rp, ?_, rfl, hle⟩
    exact ConsumerRun.cons (.inr (.inr (.inr (.inr rfl)))) hstep ⟨rfl, rfl, rfl, rfl⟩
      (ConsumerRun.refl _)
  | succ n ih =>
    intro y rp hinv hc hle
    by_cases hlt : rp < wp
    · have hstep : y.step .walk = some (y.walk wp rp) := by
        simp only [System.step, hc, if_pos hlt]
      have hwalk : Event.Consumer .walk := .inr (.inl rfl)
      rcases walk_progress hD hinv hc hlt with ⟨rp', hrp, heq⟩ | ⟨len, hpos, hend, hwp, heq⟩
      · rw [heq] at hstep
        have hrun := ConsumerRun.cons hwalk hstep ⟨rfl, rfl, rfl, rfl⟩ (ConsumerRun.refl _)
        obtain ⟨z, hz, hidle, hread⟩ := ih (consumer_inv hD hinv hrun) rfl
          (show wp ≤ rp' + n by omega)
        exact ⟨z, hrun.trans hz, hidle, hread⟩
      · rw [heq] at hstep
        obtain ⟨got, hgot, hcopy⟩ := copy_run len
          (y := { y with consumer := .reading wp rp len [] }) rfl (by simp)
        have hrun := ConsumerRun.cons hwalk hstep ⟨rfl, rfl, rfl, rfl⟩ hcopy
        have hdeliver : System.step { y with consumer := .reading wp rp len got } .deliver =
            some (System.deliver { y with consumer := .reading wp rp len got } wp rp len got) := by
          simp only [System.step, if_neg (show ¬got.length < len by omega)]
        rw [System.deliver, Nat.mod_eq_of_lt (show rp + len < 2 ^ 64 by omega)] at hdeliver
        have hrun' := hrun.trans (ConsumerRun.cons (.inr (.inr (.inr (.inl rfl)))) hdeliver
          ⟨rfl, rfl, rfl, rfl⟩ (ConsumerRun.refl _))
        obtain ⟨z, hz, hidle, hread⟩ := ih (consumer_inv hD hinv hrun') rfl
          (show wp ≤ rp + len + n by omega)
        exact ⟨z, hrun'.trans hz, hidle, hread⟩
    · have hstep : y.step .release = some (y.release rp) := by
        simp only [System.step, hc, if_neg hlt]
      refine ⟨y.release rp, ?_, rfl, by show wp ≤ rp; omega⟩
      exact ConsumerRun.cons (.inr (.inr (.inr (.inr rfl)))) hstep ⟨rfl, rfl, rfl, rfl⟩
        (ConsumerRun.refl _)

/-- Only the last step of a poll makes the consumer idle. -/
theorem release_mem {y z : System} {es : List Event} (hc : y.consumer ≠ .idle)
    (hrun : runEvents System.step y es = some z) (hidle : z.consumer = .idle) : .release ∈ es := by
  by_contra hnone
  have hstep (s : System) (e : Event) (t : System) (he : e ≠ .release) (hs : s.consumer ≠ .idle)
      (ht : s.step e = some t) : t.consumer ≠ .idle := by
    cases System.step_cases ht with
    | call c hp =>
      rw [System.begin_consumer]
      exact hs
    | store | publish => exact hs
    | sample hidle => exact absurd hidle hs
    | walk wp rp =>
      unfold System.walk
      split <;> exact Poll.noConfusion
    | copy | deliver => exact Poll.noConfusion
    | release => exact absurd rfl he
  have hes : ∀ e ∈ es, e ≠ .release := by
    rintro e he rfl
    exact hnone he
  exact runEvents_invariant _ hstep hc hes hrun hidle

/-- From an idle consumer one poll without interruption catches up with the producer. -/
theorem poll_run {D : Nat} {y : System} (hD : RingSize D) (hinv : Inv D y)
    (hc : y.consumer = .idle) (hbytes : produced y.accepted < 2 ^ 64) :
    ∃ es z, (∀ e ∈ es, e.Consumer) ∧ .release ∈ es ∧
      runEvents System.step y (.sample :: es) = some z ∧ SameProducer y z ∧ z.consumer = .idle ∧
      z.ring.header.readPos = z.ring.header.writePos := by
  have hstep : y.step .sample = some
      { y with consumer := .walking y.ring.header.writePos y.ring.header.readPos } := by
    simp only [System.step, hc]
  have hrun := ConsumerRun.cons (.inl rfl) hstep ⟨rfl, rfl, rfl, rfl⟩ (ConsumerRun.refl _)
  obtain ⟨z, hz, hidle, hread⟩ := walk_run hD _ (consumer_inv hD hinv hrun) rfl (Nat.le_add_left ..)
  obtain ⟨cur, hzinv⟩ := consumer_inv hD hinv (hrun.trans hz)
  obtain ⟨-, -, -, hsame⟩ := hrun.trans hz
  obtain ⟨es, hes, hwalked, -⟩ := hz
  refine ⟨es, z, hes, release_mem (fun h => Poll.noConfusion h) hwalked hidle,
    runEvents_cons.mpr ⟨_, hstep, hwalked⟩, hsame, hidle, ?_⟩
  have hpublished := hzinv.published
  have hspan := hzinv.span
  rw [hidle] at hspan
  simp only [Poll.cursor] at hspan
  rw [hsame.accepted] at hpublished hspan
  rw [← hsame.writePos] at hread
  omega

/-! ### One after the other -/

/-- Neither party is at work: so much has been produced and passed, and so many records dropped. -/
structure Rests (D : Nat) (y : System) (made passed lost : Nat) : Prop where
  inv : Inv D y
  producer : y.producer = none
  consumer : y.consumer = .idle
  made : produced y.accepted = made
  passed : y.ring.header.readPos = passed
  lost : y.ring.header.droppedRecords = lost

theorem rests_initial {D : Nat} (hD : RingSize D) :
    Rests D (System.initial (RingState.fresh D)) 0 0 0 :=
  ⟨inv_initial hD, rfl, rfl, rfl, rfl, rfl⟩

section

variable {D made passed lost : Nat} {y : System}

/-- A call finds its place from what has been produced and passed. -/
theorem Rests.place_eq (h : Rests D y made passed lost) (recLen : Nat) :
    place y.ring.dataSize y.ring.writePos y.ring.header.readPos recLen =
      place D (made % 2 ^ 64) passed recLen := by
  obtain ⟨cur, hinv⟩ := h.inv
  rw [hinv.size, hinv.writePos, h.made, h.passed]

theorem Rests.accepted (hD : RingSize D) (h : Rests D y made passed lost) {c : WriteCall}
    (hc : c.Legal) {p : Placement} (hplace : place D (made % 2 ^ 64) passed c.recLen = .ok p) :
    ∃ n z a, runEvents System.step y (.call c :: List.replicate n .store ++ [.publish]) = some z ∧
      Rests D z (made + (p.needPad + p.recLen)) passed lost ∧ z.accepted = y.accepted ++ [a] ∧
      a.call = c := by
  have hbegin : beginWrite y.ring c = .ok (Pending.of y.ring c p) := by
    rw [beginWrite, h.place_eq, hplace]
  have hrun := call_accepted h.producer hbegin
  refine ⟨_, _, _, hrun, ⟨?_, h.producer, h.consumer, ?_, h.passed, h.lost⟩, rfl,
    Pending.of_call ..⟩
  · refine runEvents_invariant Event.Legal (fun s e t he hs ht => (step_refines hD he hs ht).1) h.inv
      ?_ hrun
    intro e he c' heq
    subst heq
    simp only [List.cons_append, List.mem_cons, List.mem_append, List.mem_replicate,
      List.not_mem_nil, or_false, Event.call.injEq, reduceCtorEq, and_false] at he
    exact he ▸ hc
  · rw [produced_snoc, h.made, Pending.accepted, Pending.of_place]

theorem Rests.dropped (hD : RingSize D) (h : Rests D y made passed lost) {c : WriteCall}
    (hc : c.Legal) {bytes : Nat} (hplace : place D (made % 2 ^ 64) passed c.recLen = .error bytes) :
    ∃ z, y.step (.call c) = some z ∧ Rests D z made passed ((lost + 1) % 2 ^ 64) ∧
      z.accepted = y.accepted := by
  have hbegin : beginWrite y.ring c = .error (y.ring.drop bytes) := by
    rw [beginWrite, h.place_eq, hplace]
  have hstep := call_dropped h.producer hbegin
  refine ⟨_, hstep, ⟨?_, h.producer, h.consumer, h.made, h.passed, ?_⟩, rfl⟩
  · refine (step_refines hD (fun c' heq => ?_) h.inv hstep).1
    exact Event.call.inj heq ▸ hc
  · rw [← h.lost]
    rfl

theorem Rests.polled (hD : RingSize D) (h : Rests D y made passed lost) (hmade : made < 2 ^ 64) :
    ∃ es z, (∀ e ∈ es, e.Consumer) ∧ .release ∈ es ∧
      runEvents System.step y (.sample :: es) = some z ∧ Rests D z made made lost ∧
      z.accepted = y.accepted := by
  obtain ⟨es, z, hes, hrelease, hrun, hsame, hidle, hpos⟩ := poll_run hD h.inv h.consumer (by
    rw [h.made]
    exact hmade)
  have hinv : Inv D z :=
    consumer_inv hD h.inv ⟨.sample :: es, List.forall_mem_cons.mpr ⟨.inl rfl, hes⟩, hrun, hsame⟩
  obtain ⟨cur, hz⟩ := hinv
  have hproduced : produced z.accepted = made := by rw [hsame.accepted, h.made]
  refine ⟨es, z, hes, hrelease, hrun, ⟨⟨cur, hz⟩, hsame.producer.trans h.producer, hidle, hproduced,
    ?_, hsame.droppedRecords.trans h.lost⟩, hsame.accepted⟩
  rw [hpos, hz.published, hproduced, Nat.mod_eq_of_lt hmade]

end

end NetDebugger.Ring
