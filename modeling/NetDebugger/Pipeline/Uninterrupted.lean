import NetDebugger.Pipeline

/-! Runs of the whole path in which nothing interrupts a call or a poll.  An account says what they
come to. -/

namespace NetDebugger.Pipeline

open Lib NetDebugger.Ring Capture

variable {utf16ToUtf8 : List UInt16 → List UInt8}

theorem reaches_one {y z : State} {e : Event} (h : y.step utf16ToUtf8 e = some z) :
    Reaches (State.step utf16ToUtf8) (fun _ => True) y z := .head trivial h (.refl z)

theorem access_step {y : State} {e : Ring.Event} {s : System} (hcall : ∀ c, e ≠ .call c)
    (hdeliver : e ≠ .deliver) (h : y.system.step e = some s) :
    y.step utf16ToUtf8 (.access e) = some { y with system := s } := by
  cases e with
  | call c => exact absurd rfl (hcall c)
  | deliver => exact absurd rfl hdeliver
  | store | publish | sample | walk | copy | release => simp only [State.step, h, Option.map_some]

/-- Accesses of either party other than deliveries, as events of the whole path. -/
theorem access_run {es : List Ring.Event} (hes : ∀ e ∈ es, (∀ c, e ≠ .call c) ∧ e ≠ .deliver)
    {y : State} {s : System} (hrun : runEvents System.step y.system es = some s) :
    runEvents (State.step utf16ToUtf8) y (es.map Event.access) = some { y with system := s } := by
  induction es generalizing y with
  | nil =>
    obtain rfl := Option.some.inj hrun
    rfl
  | cons e es ih =>
    obtain ⟨m, hm, hrest⟩ := runEvents_cons.mp hrun
    obtain ⟨hcall, hdeliver⟩ := hes e (List.mem_cons_self ..)
    exact runEvents_cons.mpr ⟨_, access_step hcall hdeliver hm, ih (fun f hf => hes f (List.mem_cons_of_mem _ hf)) hrest⟩

/-- The call of the next chunk, when it is accepted. -/
theorem emit_run {y : State} {k : Stream} {flags : UInt16} {chunk : List UInt8}
    {rest : List (UInt16 × List UInt8)} {timestamp : UInt64} {n : Nat} {s : System}
    (hqueue : y.queue k = (flags, chunk) :: rest)
    (hrun : runEvents System.step y.system (.call ((Source.data k flags chunk).call timestamp) ::
      List.replicate n .store ++ [.publish]) = some s) :
    Reaches (State.step utf16ToUtf8) (fun _ => True) y { y with
      system := s
      queue := Function.update y.queue k rest
      calls := y.calls ++ [(.data k flags chunk, true)] } := by
  rw [List.cons_append] at hrun
  obtain ⟨m, hm, hrest⟩ := runEvents_cons.mp hrun
  have hisSome : m.producer.isSome = true := by
    cases n with
    | zero =>
      obtain ⟨_, hpublish, -⟩ := runEvents_cons.mp hrest
      cases System.step_cases hpublish with
      | publish p hp hst => rw [hp]; rfl
    | succ n =>
      obtain ⟨_, hstore, -⟩ := runEvents_cons.mp hrest
      cases System.step_cases hstore with
      | store p st rest hp hst => rw [hp]; rfl
  have hemit : y.step utf16ToUtf8 (.emit k timestamp) = some { y with
      system := m
      queue := Function.update y.queue k rest
      calls := y.calls ++ [(.data k flags chunk, true)] } := by
    simp only [State.step, hqueue, State.write, hm, Option.map_some, hisSome]
  refine Reaches.head trivial hemit ⟨_, fun _ _ => trivial, access_run (fun e he => ?_) hrest⟩
  rcases List.mem_append.mp he with he | he
  · rw [List.eq_of_mem_replicate he]
    simp
  · rw [List.mem_singleton.mp he]
    simp

/-- The call of the next chunk, when it is dropped. -/
theorem emit_dropped {y : State} {k : Stream} {flags : UInt16} {chunk : List UInt8}
    {rest : List (UInt16 × List UInt8)} {timestamp : UInt64} {s : System}
    (hqueue : y.queue k = (flags, chunk) :: rest)
    (hstep : y.system.step (.call ((Source.data k flags chunk).call timestamp)) = some s)
    (hs : s.producer = none) :
    y.step utf16ToUtf8 (.emit k timestamp) = some { y with
      system := s
      queue := Function.update y.queue k rest
      calls := y.calls ++ [(.data k flags chunk, false)] } := by
  simp only [State.step, hqueue, State.write, hstep, Option.map_some, hs, Option.isSome_none]

/-- The steps of the consumer, with a record handed to the model at each delivery. -/
theorem consumer_run {es : List Ring.Event} (hes : ∀ e ∈ es, e.Consumer) {y : State} {s : System}
    (hrun : runEvents System.step y.system es = some s) :
    ∃ model, Reaches (State.step utf16ToUtf8) (fun _ => True) y { y with system := s, model } := by
  induction es generalizing y with
  | nil =>
    obtain rfl := Option.some.inj hrun
    exact ⟨y.model, .refl y⟩
  | cons e es ih =>
    obtain ⟨m, hm, hrest⟩ := runEvents_cons.mp hrun
    obtain ⟨he, hes⟩ := List.forall_mem_cons.mp hes
    have hnext : ∃ f model, y.step utf16ToUtf8 f = some { y with system := m, model } := by
      by_cases hdeliver : e = .deliver
      · subst hdeliver
        have hdeliver := hm
        cases System.step_cases hm with
        | deliver wp rp len got hc hle =>
          refine ⟨.deliver 0, y.model.ingest utf16ToUtf8 (pointer got) 0, ?_⟩
          simp only [State.step, hc, hdeliver, Option.map_some]
      · refine ⟨.access e, y.model, access_step (fun c hc => ?_) hdeliver hm⟩
        subst hc
        rcases he with h | h | h | h | h <;> cases h
    obtain ⟨f, model, hf⟩ := hnext
    obtain ⟨model', hreaches⟩ := ih hes (y := { y with system := m, model }) hrest
    exact ⟨model', .head trivial hf hreaches⟩

/-! ### Accounts -/

/-- How far the producer and the consumer are, how many records were dropped, what is still to be
written, and the two histories. -/
structure Account where
  made : Nat
  passed : Nat
  lost : Nat
  queue : Stream → List (UInt16 × List UInt8)
  indications : List Indication
  calls : List (Source × Bool)

/-- Nothing is under way, and the account is right. -/
structure State.Keeps (D cap : Nat) (y : State) (x : Account) : Prop where
  inv : Inv D cap y
  rests : Ring.Rests D y.system x.made x.passed x.lost
  queue : y.queue = x.queue
  indications : y.indications = x.indications
  calls : y.calls = x.calls

def Account.nothing : Account := ⟨0, 0, 0, fun _ => [], [], []⟩

@[simp] theorem Account.nothing_queue (k : Stream) : Account.nothing.queue k = [] := rfl

theorem keeps_initial {D : Nat} (hD : RingSize D) (cap packetCap : Nat) :
    (State.initial (RingState.fresh D) cap packetCap).Keeps D cap .nothing :=
  ⟨inv_initial hD cap packetCap, Ring.rests_initial hD, rfl, rfl, rfl⟩

section

variable {D cap : Nat} {y : State} {x : Account}

theorem State.Keeps.reaches {z : State} (hD : RingSize D) (h : y.Keeps D cap x)
    (hreaches : Reaches (State.step utf16ToUtf8) (fun _ => True) y z) : Inv D cap z := by
  obtain ⟨es, hes, hrun⟩ := hreaches
  exact runEvents_invariant _ (fun _ _ _ _ hs hstep => step_inv hD hs hstep) h.inv hes hrun

theorem State.Keeps.indicate (hD : RingSize D) (h : y.Keeps D cap x) (i : Indication)
    (hempty : x.queue (stream i) = []) :
    ∃ z, Reaches (State.step utf16ToUtf8) (fun _ => True) y z ∧ z.Keeps D cap { x with
      queue := Function.update x.queue (stream i) ((kndClassifyStream i).map (i.flags, ·))
      indications := x.indications ++ [i] } := by
  rw [← h.queue] at hempty
  have hstep : y.step utf16ToUtf8 (.indicate i) = some { y with
      queue := Function.update y.queue (stream i) ((kndClassifyStream i).map (i.flags, ·))
      indications := y.indications ++ [i] } := if_pos hempty
  have hreaches := reaches_one hstep
  refine ⟨_, hreaches, h.reaches hD hreaches, h.rests, ?_, ?_, h.calls⟩
  · rw [← h.queue]
  · rw [← h.indications]

/-- A chunk finds room. -/
theorem State.Keeps.emit (hD : RingSize D) (h : y.Keeps D cap x) {k : Stream} {flags : UInt16}
    {chunk : List UInt8} {rest : List (UInt16 × List UInt8)}
    (hqueue : x.queue k = (flags, chunk) :: rest) {p : Placement}
    (hplace : place D (x.made % 2 ^ 64) x.passed ((Source.data k flags chunk).call 0).recLen =
      .ok p) {made : Nat} (hmade : x.made + (p.needPad + p.recLen) = made) :
    ∃ z, Reaches (State.step utf16ToUtf8) (fun _ => True) y z ∧ z.Keeps D cap { x with
      made := made
      queue := Function.update x.queue k rest
      calls := x.calls ++ [(.data k flags chunk, true)] } := by
  rw [← h.queue] at hqueue
  have hchunk : (Source.data k flags chunk).Chunk :=
    h.inv.queued k (flags, chunk) (by rw [hqueue]; exact List.mem_cons_self ..)
  obtain ⟨n, s, a, hrun, hrests, -, -⟩ := h.rests.accepted hD (Source.call_legal hchunk 0) hplace
  have hreaches := @emit_run utf16ToUtf8 y k flags chunk rest 0 n s hqueue hrun
  rw [hmade] at hrests
  refine ⟨_, hreaches, h.reaches hD hreaches, hrests, ?_, h.indications, ?_⟩
  · rw [← h.queue]
  · rw [← h.calls]

/-- A chunk finds no room. -/
theorem State.Keeps.drop (hD : RingSize D) (h : y.Keeps D cap x) {k : Stream} {flags : UInt16}
    {chunk : List UInt8} {rest : List (UInt16 × List UInt8)}
    (hqueue : x.queue k = (flags, chunk) :: rest) {bytes : Nat}
    (hplace : place D (x.made % 2 ^ 64) x.passed ((Source.data k flags chunk).call 0).recLen =
      .error bytes) :
    ∃ z, Reaches (State.step utf16ToUtf8) (fun _ => True) y z ∧ z.Keeps D cap { x with
      lost := (x.lost + 1) % 2 ^ 64
      queue := Function.update x.queue k rest
      calls := x.calls ++ [(.data k flags chunk, false)] } := by
  rw [← h.queue] at hqueue
  have hchunk : (Source.data k flags chunk).Chunk :=
    h.inv.queued k (flags, chunk) (by rw [hqueue]; exact List.mem_cons_self ..)
  obtain ⟨s, hstep, hrests, -⟩ := h.rests.dropped hD (Source.call_legal hchunk 0) hplace
  have hemit := @emit_dropped utf16ToUtf8 y k flags chunk rest 0 s hqueue hstep hrests.producer
  have hreaches := reaches_one hemit
  refine ⟨_, hreaches, h.reaches hD hreaches, hrests, ?_, h.indications, ?_⟩
  · rw [← h.queue]
  · rw [← h.calls]

theorem State.Keeps.poll (hD : RingSize D) (h : y.Keeps D cap x) (hmade : x.made < 2 ^ 64) :
    ∃ z, Reaches (State.step utf16ToUtf8) (fun _ => True) y z ∧
      z.Keeps D cap { x with passed := x.made } := by
  obtain ⟨es, s, hes, -, hrun, hrests, -⟩ := h.rests.polled hD hmade
  obtain ⟨model, hreaches⟩ := @consumer_run utf16ToUtf8 (.sample :: es)
    (List.forall_mem_cons.mpr ⟨.inl rfl, hes⟩) y s hrun
  exact ⟨_, hreaches, h.reaches hD hreaches, hrests, h.queue, h.indications, h.calls⟩

/-- Where the poll has passed all that was made, and no chunk waits. -/
theorem State.Keeps.drained (h : y.Keeps D cap x) (hpassed : x.passed = x.made)
    (hmade : x.made < 2 ^ 64) (hqueue : ∀ i ∈ x.indications, x.queue (stream i) = []) :
    y.Drained where
  producer := h.rests.producer
  consumer := h.rests.consumer
  caughtUp := by
    obtain ⟨cur, hinv⟩ := h.rests.inv
    rw [h.rests.passed, hpassed, hinv.published, h.rests.made, Nat.mod_eq_of_lt hmade]
  queue := by
    rw [h.indications, h.queue]
    exact hqueue

end

end NetDebugger.Pipeline
