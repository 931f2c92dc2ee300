import NetDebugger.Tls.Hook

/-! The keylog between the threads of the hook.  It holds a line for each secret that has been appended,
and the line of a call that is still on its way is among what its thread has to append. -/

namespace NetDebugger.Tls

open Lib

variable {Thread : Type} [DecidableEq Thread]

/-! ### The key object -/

@[simp] theorem KeyObject.read_length {key : KeyObject} {off n : Nat} {bs : List UInt8}
    (h : key.read off n = some bs) : bs.length = n := by
  induction n generalizing off bs with
  | zero =>
    obtain rfl := Option.some.inj h
    rfl
  | succ n ih =>
    obtain ⟨b, -, h⟩ := Option.bind_eq_some_iff.mp h
    obtain ⟨rest, hrest, h⟩ := Option.bind_eq_some_iff.mp h
    obtain rfl := Option.some.inj h
    rw [List.length_cons, ih hrest]

theorem KeyObject.read_isSome {key : KeyObject} {off n : Nat} :
    (key.read off n).isSome = true ↔ ∀ i, off ≤ i → i < off + n → (key i).isSome = true := by
  induction n generalizing off with
  | zero => exact iff_of_true rfl fun i h h' => by omega
  | succ n ih =>
    have hrest := @ih (off + 1)
    simp only [KeyObject.read, Option.bind_eq_bind]
    constructor
    · intro h i hoff hi
      cases hb : key off with
      | none =>
        rw [hb] at h
        contradiction
      | some b =>
        cases hbs : key.read (off + 1) n with
        | none =>
          rw [hb, hbs] at h
          contradiction
        | some bs =>
          rcases Nat.eq_or_lt_of_le hoff with rfl | hlt
          · rw [hb]
            rfl
          · exact hrest.mp (by rw [hbs]; rfl) i hlt (by omega)
    · intro h
      obtain ⟨b, hb⟩ := Option.isSome_iff_exists.mp (h off (Nat.le_refl _) (by omega))
      obtain ⟨bs, hbs⟩ := Option.isSome_iff_exists.mp
        (hrest.mpr fun i hi hlt => h i (Nat.le_of_succ_le hi) (by omega))
      rw [hb, hbs]
      rfl

theorem KeyObject.read_within {key : KeyObject} {off n : Nat} (h : (key.read 0 0x80).isSome = true)
    (hn : off + n ≤ 0x80) : ∃ bs, key.read off n = some bs :=
  Option.isSome_iff_exists.mp (KeyObject.read_isSome.mpr fun i _ hi =>
    KeyObject.read_isSome.mp h i (Nat.zero_le i) (by omega))

/-- A call that succeeds with a client random of full length and the secret of its key object. -/
structure Call.Records (c : Call) (clientRandom secret : List UInt8) : Prop where
  rc : c.rc = 0
  key : ∃ key, c.master = some key ∧ key.read 0x1c 48 = some secret
  random : ∃ cr, clientRandOf c.params = some cr ∧ 32 ≤ cr.length ∧ clientRandom = cr.take 32

/-- Nor does the calibration of its key object fault. -/
structure Call.Captures (c : Call) (clientRandom secret : List UInt8) : Prop
    extends c.Records clientRandom secret where
  readable : ∀ key, c.master = some key → (key.read 0 0x80).isSome = true

theorem Call.Records.lengths {c : Call} {clientRandom secret : List UInt8}
    (h : c.Records clientRandom secret) : clientRandom.length = 32 ∧ secret.length = 48 := by
  obtain ⟨key, -, hsecret⟩ := h.key
  obtain ⟨cr, -, hlen, rfl⟩ := h.random
  exact ⟨by rw [List.length_take]; omega, KeyObject.read_length hsecret⟩

theorem calibration_calib {key : KeyObject} {clientRand : Option (List UInt8)} {a : Append}
    (ha : a ∈ (calibration key clientRand).appends) : a.path = .calib := by
  unfold calibration at ha
  split at ha
  · rcases List.mem_cons.mp ha with rfl | ha
    · rfl
    · split at ha
      · split at ha
        · rw [List.mem_singleton.mp ha]
        · contradiction
      · contradiction
  · contradiction

theorem recording_keylog {key : KeyObject} {clientRand : Option (List UInt8)} {a : Append} :
    a ∈ (recording key clientRand).appends ↔ ∃ cr secret, clientRand = some cr ∧ 32 ≤ cr.length ∧
      key.read 0x1c 48 = some secret ∧ a = ⟨.keylog, captureLine (cr.take 32) secret⟩ := by
  cases clientRand with
  | none => simp [recording]
  | some cr =>
    by_cases hlen : 32 ≤ cr.length
    · cases hsecret : key.read 0x1c 48 <;> simp [recording, hlen, hsecret]
    · simp [recording, hlen]

theorem Trace.mem_andThen {x y : Trace} {a : Append} (ha : a ∈ (x.andThen y).appends) :
    a ∈ x.appends ∨ a ∈ y.appends := by
  unfold Trace.andThen at ha
  split at ha
  · exact List.mem_append.mp ha
  · exact .inl ha

theorem Trace.mem_handled {x : Trace} {a : Append} (ha : a ∈ x.handled) :
    a ∈ x.appends ∨ a.path = .dbg := by
  unfold Trace.handled at ha
  split at ha
  · exact .inl ha
  · refine (List.mem_append.mp ha).imp_right fun ha => ?_
    rw [List.mem_singleton.mp ha]

theorem Trace.appends_handled {x : Trace} {a : Append} (ha : a ∈ x.appends) : a ∈ x.handled := by
  unfold Trace.handled
  split
  · exact ha
  · exact List.mem_append_left _ ha

theorem mem_hookAppends {calibrates : Bool} {key : KeyObject} {params : Option (List NCryptBuffer)}
    {a : Append} (ha : a ∈ hookAppends calibrates key params) (hpath : a.path = .keylog) :
    a ∈ (recording key (clientRandOf params)).appends := by
  rcases Trace.mem_handled ha with ha | hdbg
  · refine (Trace.mem_andThen ha).resolve_left fun ha => ?_
    split at ha
    · rw [calibration_calib ha] at hpath
      contradiction
    · contradiction
  · rw [hdbg] at hpath
    contradiction

/-- What goes to the keylog is the line of the call. -/
theorem hookAppends_keylog {calibrates : Bool} {c : Call} {key : KeyObject} (hrc : c.rc = 0)
    (hkey : c.master = some key) {a : Append} (ha : a ∈ hookAppends calibrates key c.params)
    (hpath : a.path = .keylog) :
    ∃ clientRandom secret, c.Records clientRandom secret ∧ a.text = captureLine clientRandom secret := by
  obtain ⟨cr, secret, hrand, hlen, hsecret, rfl⟩ :=
    recording_keylog.mp (mem_hookAppends ha hpath)
  exact ⟨_, secret, ⟨hrc, ⟨key, hkey, hsecret⟩, ⟨cr, hrand, hlen, rfl⟩⟩, rfl⟩

/-- A captured call has its line among what it appends. -/
theorem Call.Captures.line_mem {c : Call} {clientRandom secret : List UInt8}
    (h : c.Captures clientRandom secret) {key : KeyObject} (hkey : c.master = some key)
    (calibrates : Bool) :
    ⟨.keylog, captureLine clientRandom secret⟩ ∈ hookAppends calibrates key c.params := by
  obtain ⟨key', hkey', hsecret⟩ := h.key
  obtain rfl := Option.some.inj (hkey.symm.trans hkey')
  obtain ⟨cr, hrand, hlen, rfl⟩ := h.random
  have hreadable := h.readable key hkey
  obtain ⟨magic, hmagic⟩ := @KeyObject.read_within _ 4 4 hreadable (by decide)
  obtain ⟨first, hfirst⟩ := Option.isSome_iff_exists.mp hreadable
  have hreturns : (if calibrates then calibration key (clientRandOf c.params)
      else ⟨[], true⟩).returns = true := by
    split
    · simp only [calibration, hmagic, hfirst]
    · rfl
  apply Trace.appends_handled
  rw [Trace.andThen, if_pos hreturns]
  exact List.mem_append_right _ (recording_keylog.mpr ⟨cr, secret, hrand, hlen, hsecret, rfl⟩)

/-! ### The keylog between the threads -/

/-- The call a thread is in, until the DLL returns from it. -/
def HookThread.running : HookThread → Option Call
  | .away => none
  | .called c => some c
  | .appending c _ _ => c

def HookThread.todo : HookThread → List Append
  | .appending _ _ todo => todo
  | _ => []

/-- The line of a call is still to be appended. -/
def HookThread.Owes (th : HookThread) (c : Call) (line : List UInt8) : Prop :=
  th = .called c ∨ th.running = some c ∧ ⟨.keylog, line⟩ ∈ th.todo

theorem HookThread.Owes.running {th : HookThread} {c : Call} {line : List UInt8}
    (h : th.Owes c line) : th.running = some c := by
  rcases h with rfl | ⟨h, -⟩
  · rfl
  · exact h

theorem HookThread.not_owes_away (c : Call) (line : List UInt8) :
    ¬ HookThread.away.Owes c line := by
  rintro (h | ⟨h, -⟩) <;> contradiction

@[simp] theorem HookThread.next_todo (c : Option Call) (todo : List Append) :
    (HookThread.next c todo).todo = todo := by
  unfold HookThread.next
  split
  · next h => exact h.symm
  · rfl

theorem HookThread.next_ne_called (c : Option Call) (todo : List Append) (c' : Call) :
    HookThread.next c todo ≠ .called c' := by
  unfold HookThread.next
  split <;> nofun

theorem HookThread.owes_next {c c' : Call} {todo : List Append} {line : List UInt8}
    (hc : c = c') (hline : ⟨.keylog, line⟩ ∈ todo) : (HookThread.next (some c) todo).Owes c' line := by
  refine .inr ⟨?_, by rwa [HookThread.next_todo]⟩
  rw [HookThread.next, if_neg (List.ne_nil_of_mem hline), hc]
  rfl

/-- The call that an event begins. -/
def HookEvent.call : HookEvent Thread → Option (Thread × Call)
  | .calls t c => some (t, c)
  | _ => none

/-- A client random and a secret that one of the calls came by. -/
def Recorded (calls : List (Thread × Call)) (p : List UInt8 × List UInt8) : Prop :=
  ∃ x ∈ calls, x.2.Records p.1 p.2

/-- The keylog has grown by whole lines of the calls, and each call that has returned has its line. -/
structure Hook.Logs (contents : List UInt8) (calls : List (Thread × Call))
    (pairs : List (List UInt8 × List UInt8)) (s : Hook Thread) : Prop where
  file : s.file .keylog = contents ++ pairs.flatMap fun p => captureLine p.1 p.2
  recorded : ∀ p ∈ pairs, Recorded calls p
  pending : ∀ t, ∀ a ∈ (s.thread t).todo, a.path = .keylog →
    ∃ p, Recorded calls p ∧ a.text = captureLine p.1 p.2
  called : ∀ t c, s.thread t = .called c → (t, c) ∈ calls
  captured : ∀ t c clientRandom secret, (t, c) ∈ calls → c.Captures clientRandom secret →
    (clientRandom, secret) ∈ pairs ∨ (s.thread t).Owes c (captureLine clientRandom secret)

/-- The threads write their keylog lines in whole. -/
def Hook.WritesKeylog (s : Hook Thread) : HookEvent Thread → Prop
  | .writes t answer => ∀ a ∈ (s.thread t).todo.head?, a.path = .keylog → answer = .whole
  | _ => True

instance (s : Hook Thread) (e : HookEvent Thread) : Decidable (s.WritesKeylog e) := by
  unfold Hook.WritesKeylog
  split <;> infer_instance

section

variable {contents : List UInt8} {calls : List (Thread × Call)}
  {pairs : List (List UInt8 × List UInt8)} {s s' : Hook Thread} {t : Thread} {th : HookThread}

omit [DecidableEq Thread] in
theorem Recorded.mono {p : List UInt8 × List UInt8} (h : Recorded calls p)
    (more : List (Thread × Call)) : Recorded (calls ++ more) p := by
  obtain ⟨x, hx, hrec⟩ := h
  exact ⟨x, List.mem_append_left _ hx, hrec⟩

/-- One thread moves, and the keylog stays. -/
theorem Hook.Logs.set (h : s.Logs contents calls pairs) (hfile : s'.file .keylog = s.file .keylog)
    (hthread : s'.thread = Function.update s.thread t th)
    (htodo : ∀ a ∈ th.todo, a.path = .keylog → ∃ p, Recorded calls p ∧ a.text = captureLine p.1 p.2)
    (hcalled : ∀ c, th = .called c → (t, c) ∈ calls)
    (howes : ∀ c clientRandom secret, c.Captures clientRandom secret →
      (s.thread t).Owes c (captureLine clientRandom secret) →
        (clientRandom, secret) ∈ pairs ∨ th.Owes c (captureLine clientRandom secret)) :
    s'.Logs contents calls pairs where
  file := hfile.trans h.file
  recorded := h.recorded
  pending := by
    intro u a ha hpath
    rw [hthread] at ha
    by_cases hu : u = t
    · rw [hu, Function.update_self] at ha
      exact htodo a ha hpath
    · rw [Function.update_of_ne hu] at ha
      exact h.pending u a ha hpath
  called := by
    intro u c hc
    rw [hthread] at hc
    by_cases hu : u = t
    · rw [hu, Function.update_self] at hc
      exact hu ▸ hcalled c hc
    · rw [Function.update_of_ne hu] at hc
      exact h.called u c hc
  captured := by
    intro u c clientRandom secret hmem hcap
    rcases h.captured u c clientRandom secret hmem hcap with hlogged | hold
    · exact .inl hlogged
    · rw [hthread]
      by_cases hu : u = t
      · rw [hu, Function.update_self]
        exact howes c clientRandom secret hcap (hu ▸ hold)
      · rw [Function.update_of_ne hu]
        exact .inr hold

/-- A thread that comes to the hook. -/
theorem Hook.Logs.comes (h : s.Logs contents calls pairs) {c : Call} (haway : s.thread t = .away) :
    (s.set t (.called c)).Logs contents (calls ++ [(t, c)]) pairs where
  file := h.file
  recorded := fun p hp => (h.recorded p hp).mono _
  pending := by
    intro u a ha hpath
    simp only [Hook.set] at ha
    by_cases hu : u = t
    · rw [hu, Function.update_self] at ha
      contradiction
    · rw [Function.update_of_ne hu] at ha
      obtain ⟨p, hp, htext⟩ := h.pending u a ha hpath
      exact ⟨p, hp.mono _, htext⟩
  called := by
    intro u d hd
    simp only [Hook.set] at hd
    by_cases hu : u = t
    · rw [hu, Function.update_self] at hd
      cases hd
      exact hu ▸ List.mem_append_right _ (List.mem_singleton_self _)
    · rw [Function.update_of_ne hu] at hd
      exact List.mem_append_left _ (h.called u d hd)
  captured := by
    intro u d clientRandom secret hmem hcap
    simp only [Hook.set]
    rcases List.mem_append.mp hmem with hmem | hmem
    · refine (h.captured u d clientRandom secret hmem hcap).imp_right fun hold => ?_
      by_cases hu : u = t
      · rw [hu, haway] at hold
        exact absurd hold (HookThread.not_owes_away d _)
      · rwa [Function.update_of_ne hu]
    · obtain ⟨rfl, rfl⟩ := Prod.mk.inj (List.mem_singleton.mp hmem)
      rw [Function.update_self]
      exact .inr (.inl rfl)

omit [DecidableEq Thread] in
theorem captureLine_inj {p q : List UInt8 × List UInt8} (hp : Recorded calls p)
    (hq : q.1.length = 32 ∧ q.2.length = 48) (h : captureLine q.1 q.2 = captureLine p.1 p.2) :
    q = p := by
  obtain ⟨x, -, hrec⟩ := hp
  have hline := keyLine_captureLine hrec.lengths.1 hrec.lengths.2
  rw [← h, keyLine_captureLine hq.1 hq.2] at hline
  exact Option.some.inj hline

omit [DecidableEq Thread] in
/-- The keylog grows by a line. -/
theorem Hook.Logs.grows (h : s.Logs contents calls pairs) {p : List UInt8 × List UInt8}
    (hp : Recorded calls p) (hfile : s'.file .keylog = s.file .keylog ++ captureLine p.1 p.2)
    (hthread : s'.thread = s.thread) : s'.Logs contents calls (pairs ++ [p]) where
  file := by
    rw [hfile, h.file, List.flatMap_append, List.flatMap_singleton, List.append_assoc]
  recorded := fun q hq => (List.mem_append.mp hq).elim (h.recorded q) fun hq =>
    List.mem_singleton.mp hq ▸ hp
  pending := by
    rw [hthread]
    exact h.pending
  called := by
    rw [hthread]
    exact h.called
  captured := by
    rw [hthread]
    exact fun u c clientRandom secret hmem hcap =>
      (h.captured u c clientRandom secret hmem hcap).imp_left (List.mem_append_left _)

/-- A thread appends to a log. -/
theorem Hook.Logs.writes (h : s.Logs contents calls pairs) {c : Option Call} {a : Append}
    {todo : List Append} {answer : Answer} (hth : s.thread t = .appending c .inside (a :: todo))
    (hanswer : a.path = .keylog → answer = .whole) :
    ∃ pairs', (({ s with
      file := Function.update s.file a.path (s.file a.path ++ answer.written a.text) } :
        Hook Thread).set t (.appending c .written todo)).Logs contents calls pairs' := by
  have hpending : ∀ b ∈ todo, b.path = .keylog →
      ∃ p, Recorded calls p ∧ b.text = captureLine p.1 p.2 := fun b hb =>
    h.pending t b (by rw [hth]; exact List.mem_cons_of_mem _ hb)
  have howes : ∀ c' line, (s.thread t).Owes c' line →
      a = ⟨.keylog, line⟩ ∨ (HookThread.appending c .written todo).Owes c' line := by
    rintro c' line (hcalled | ⟨hrunning, hmem⟩)
    · rw [hth] at hcalled
      contradiction
    · rw [hth] at hrunning hmem
      exact (List.mem_cons.mp hmem).imp Eq.symm fun hmem => .inr ⟨hrunning, hmem⟩
  by_cases hpath : a.path = .keylog
  · obtain ⟨p, hp, htext⟩ := h.pending t a (by rw [hth]; exact List.mem_cons_self ..) hpath
    have hfile : Function.update s.file a.path (s.file a.path ++ answer.written a.text) .keylog =
        s.file .keylog ++ captureLine p.1 p.2 := by
      rw [hpath, hanswer hpath, Function.update_self, htext]
      rfl
    have hgrown := @Hook.Logs.grows Thread contents calls pairs s { s with
      file := Function.update s.file a.path (s.file a.path ++ answer.written a.text) } h p hp hfile rfl
    refine ⟨pairs ++ [p], hgrown.set rfl rfl hpending nofun fun c' clientRandom secret hcap hold => ?_⟩
    refine (howes c' _ hold).imp_left fun ha => ?_
    rw [ha] at htext
    exact List.mem_append_right _
      (List.mem_singleton.mpr (captureLine_inj (q := (_, _)) hp hcap.lengths htext))
  · refine ⟨pairs, h.set ?_ rfl hpending nofun fun c' clientRandom secret _ hold => ?_⟩
    · exact Function.update_of_ne (Ne.symm hpath) _ _
    · refine .inr ((howes c' _ hold).resolve_left ?_)
      rintro rfl
      exact hpath rfl

/-- One event. -/
theorem Hook.Logs.step (h : s.Logs contents calls pairs) {e : HookEvent Thread}
    (he : s.WritesKeylog e) (hstep : s.step e = some s') :
    ∃ pairs', s'.Logs contents (calls ++ e.call.toList) pairs' := by
  have hsay : ∀ {line : List UInt8}, ∀ a ∈ [(⟨.dbg, line⟩ : Append)], a.path = .keylog →
      ∃ p, Recorded calls p ∧ a.text = captureLine p.1 p.2 := by
    intro line a ha hpath
    rw [List.mem_singleton.mp ha] at hpath
    contradiction
  have hsilent : e.call = none → (∃ pairs', s'.Logs contents calls pairs') →
      ∃ pairs', s'.Logs contents (calls ++ e.call.toList) pairs' := by
    intro hcall hlogs
    rwa [hcall, Option.toList_none, List.append_nil]
  cases e with
  | installs t result =>
    simp only [Hook.step] at hstep
    split at hstep
    · next haway =>
      obtain rfl := Option.some.inj hstep
      refine hsilent rfl ⟨pairs, h.set rfl rfl hsay nofun fun c _ _ _ hold => ?_⟩
      rw [haway] at hold
      exact absurd hold (HookThread.not_owes_away c _)
    · contradiction
  | unhooks t =>
    simp only [Hook.step] at hstep
    split at hstep
    · next haway =>
      obtain rfl := Option.some.inj hstep
      refine hsilent rfl ⟨pairs, h.set rfl rfl hsay nofun fun c _ _ _ hold => ?_⟩
      rw [haway] at hold
      exact absurd hold (HookThread.not_owes_away c _)
    · contradiction
  | calls t c =>
    simp only [Hook.step] at hstep
    split at hstep
    · next haway _ =>
      obtain rfl := Option.some.inj hstep
      exact ⟨pairs, h.comes haway⟩
    · contradiction
  | captures t =>
    simp only [Hook.step] at hstep
    split at hstep
    · next c hth =>
      have hmem := h.called t c hth
      split at hstep
      · next key hkey =>
        obtain rfl := Option.some.inj hstep
        split at hkey
        · next hrc =>
          refine hsilent rfl ⟨pairs, h.set rfl rfl (fun a ha hpath => ?_)
            (fun c' hc' => absurd hc' (HookThread.next_ne_called _ _ c')) ?_⟩
          · rw [HookThread.next_todo] at ha
            obtain ⟨clientRandom, secret, hrec, htext⟩ := hookAppends_keylog hrc hkey ha hpath
            exact ⟨(clientRandom, secret), ⟨(t, c), hmem, hrec⟩, htext⟩
          · intro c' clientRandom secret hcap hold
            rw [hth] at hold
            obtain rfl : c = c' := Option.some.inj hold.running
            exact .inr (HookThread.owes_next rfl (hcap.line_mem hkey _))
        · contradiction
      · next hnone =>
        obtain rfl := Option.some.inj hstep
        refine hsilent rfl ⟨pairs, h.set rfl rfl nofun nofun ?_⟩
        intro c' clientRandom secret hcap hold
        rw [hth] at hold
        obtain rfl : c = c' := Option.some.inj hold.running
        obtain ⟨key, hkey, -⟩ := hcap.key
        rw [if_pos hcap.rc, hkey] at hnone
        contradiction
    · contradiction
  | enters t =>
    simp only [Hook.step] at hstep
    split at hstep
    · next c todo hth _ =>
      obtain rfl := Option.some.inj hstep
      refine hsilent rfl ⟨pairs, h.set rfl rfl (fun a ha => h.pending t a (by rwa [hth])) nofun ?_⟩
      rintro c' _ _ - hold
      rw [hth] at hold
      exact .inr (.inr (hold.resolve_left nofun))
    · contradiction
  | writes t answer =>
    simp only [Hook.step] at hstep
    split at hstep
    · next c a todo hth =>
      obtain rfl := Option.some.inj hstep
      exact hsilent rfl (h.writes hth (he a (by rw [hth]; rfl)))
    · contradiction
  | leaves t =>
    simp only [Hook.step] at hstep
    split at hstep
    · next c todo hth =>
      obtain rfl := Option.some.inj hstep
      refine hsilent rfl ⟨pairs, h.set rfl rfl (fun a ha => h.pending t a ?_)
        (fun c' hc' => absurd hc' (HookThread.next_ne_called c todo c')) ?_⟩
      · rw [hth]
        rwa [HookThread.next_todo] at ha
      · rintro c' _ _ - hold
        rw [hth] at hold
        obtain ⟨rfl, hmem⟩ := hold.resolve_left nofun
        exact .inr (HookThread.owes_next rfl hmem)
    · contradiction

/-- A run. -/
theorem Hook.Logs.run (h : s.Logs contents calls pairs) {es : List (HookEvent Thread)}
    (hes : EachStep Hook.step Hook.WritesKeylog s es)
    (hrun : runEvents Hook.step s es = some s') :
    ∃ pairs', s'.Logs contents (calls ++ es.filterMap HookEvent.call) pairs' := by
  induction es generalizing s calls pairs with
  | nil =>
    obtain rfl := Option.some.inj hrun
    exact ⟨pairs, by rwa [List.filterMap_nil, List.append_nil]⟩
  | cons e es ih =>
    obtain ⟨m, hstep, hrest⟩ := runEvents_cons.mp hrun
    obtain ⟨pairs', hm⟩ := h.step hes.1 hstep
    obtain ⟨pairs'', hlast⟩ := ih hm (hes.2 m hstep) hrest
    refine ⟨pairs'', ?_⟩
    cases hcall : e.call with
    | none =>
      rw [hcall, Option.toList_none, List.append_nil] at hlast
      rwa [List.filterMap_cons_none hcall]
    | some x =>
      rw [hcall, Option.toList_some, List.append_assoc] at hlast
      rwa [List.filterMap_cons_some hcall]

omit [DecidableEq Thread] in
/-- The logs when the DLL comes. -/
theorem Hook.attached_logs (file : Log → List UInt8) :
    (Hook.attached file : Hook Thread).Logs (file .keylog) [] [] where
  file := (List.append_nil _).symm
  recorded := nofun
  pending := nofun
  called := nofun
  captured := nofun

end

end NetDebugger.Tls
