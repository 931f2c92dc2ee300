import NetDebugger.Tls.Hook

/-! The critical section of the hook.  Its owner is the one thread in it, which comes out of it by itself,
so no thread keeps another in the hook. -/

namespace NetDebugger.Tls

open Lib

variable {Thread : Type} [DecidableEq Thread]

/-- A thread in the critical section. -/
def HookThread.inside : HookThread → Bool
  | .appending _ .inside _ | .appending _ .written _ => true
  | _ => false

/-- A thread in front of an append has something to append. -/
def HookThread.Busy : HookThread → Prop
  | .appending _ .waiting todo | .appending _ .inside todo => todo ≠ []
  | _ => True

/-- The owner of the critical section is the thread in it. -/
structure Hook.Locked (s : Hook Thread) : Prop where
  inside : ∀ t, (s.thread t).inside = true ↔ s.owner = some t
  busy : ∀ t, (s.thread t).Busy

@[simp] theorem HookThread.next_inside (c : Option Call) (todo : List Append) :
    (HookThread.next c todo).inside = false := by
  unfold HookThread.next
  split <;> rfl

theorem HookThread.next_busy (c : Option Call) (todo : List Append) :
    (HookThread.next c todo).Busy := by
  unfold HookThread.next
  split
  · trivial
  · next h => exact h

section

variable {s s' : Hook Thread} {t : Thread} {th : HookThread}

/-- A thread moves outside of the critical section, or within it. -/
theorem Hook.Locked.set (h : s.Locked) (howner : s'.owner = s.owner)
    (hthread : s'.thread = Function.update s.thread t th)
    (hinside : th.inside = (s.thread t).inside) (hbusy : th.Busy) : s'.Locked where
  inside := by
    intro u
    rw [hthread, howner, ← h.inside u]
    by_cases hu : u = t
    · rw [hu, Function.update_self, hinside]
    · rw [Function.update_of_ne hu]
  busy := by
    intro u
    rw [hthread]
    by_cases hu : u = t
    · rw [hu, Function.update_self]
      exact hbusy
    · rw [Function.update_of_ne hu]
      exact h.busy u

/-- A thread enters the critical section, or leaves it. -/
theorem Hook.Locked.switch (h : s.Locked) (howner : s.owner = none ∨ s.owner = some t)
    (hthread : s'.thread = Function.update s.thread t th)
    (hinside : s'.owner = if th.inside then some t else none) (hbusy : th.Busy) : s'.Locked where
  inside := by
    intro u
    rw [hthread, hinside]
    by_cases hu : u = t
    · rw [hu, Function.update_self]
      split <;> simp_all
    · have hout : (s.thread u).inside = false := by
        rw [Bool.eq_false_iff, ne_eq, h.inside u]
        rcases howner with howner | howner <;> rw [howner] <;> simp [Ne.symm hu]
      rw [Function.update_of_ne hu, hout]
      split <;> simp [Ne.symm hu]
  busy := by
    intro u
    rw [hthread]
    by_cases hu : u = t
    · rw [hu, Function.update_self]
      exact hbusy
    · rw [Function.update_of_ne hu]
      exact h.busy u

theorem Hook.Locked.step (h : s.Locked) {e : HookEvent Thread} (hstep : s.step e = some s') :
    s'.Locked := by
  cases e with
  | installs t result =>
    simp only [Hook.step] at hstep
    split at hstep
    · next haway =>
      obtain rfl := Option.some.inj hstep
      exact h.set rfl rfl (by rw [haway]; rfl) (List.cons_ne_nil _ _)
    · contradiction
  | unhooks t =>
    simp only [Hook.step] at hstep
    split at hstep
    · next haway =>
      obtain rfl := Option.some.inj hstep
      exact h.set rfl rfl (by rw [haway]; rfl) (List.cons_ne_nil _ _)
    · contradiction
  | calls t c =>
    simp only [Hook.step] at hstep
    split at hstep
    · next haway _ =>
      obtain rfl := Option.some.inj hstep
      exact h.set rfl rfl (by rw [haway]; rfl) trivial
    · contradiction
  | captures t =>
    simp only [Hook.step] at hstep
    split at hstep
    · next c hth =>
      split at hstep <;> obtain rfl := Option.some.inj hstep
      · exact h.set rfl rfl (by rw [hth, HookThread.next_inside]; rfl) (HookThread.next_busy _ _)
      · exact h.set rfl rfl (by rw [hth]; rfl) trivial
    · contradiction
  | enters t =>
    simp only [Hook.step] at hstep
    split at hstep
    · next c todo hth hnone =>
      obtain rfl := Option.some.inj hstep
      have hbusy := h.busy t
      rw [hth] at hbusy
      exact h.switch (.inl hnone) rfl rfl hbusy
    · contradiction
  | writes t answer =>
    simp only [Hook.step] at hstep
    split at hstep
    · next c a todo hth =>
      obtain rfl := Option.some.inj hstep
      exact h.set rfl rfl (by rw [hth]; rfl) trivial
    · contradiction
  | leaves t =>
    simp only [Hook.step] at hstep
    split at hstep
    · next c todo hth =>
      obtain rfl := Option.some.inj hstep
      have howner := (h.inside t).mp (by rw [hth]; rfl)
      refine h.switch (.inr howner) rfl ?_ (HookThread.next_busy _ _)
      rw [HookThread.next_inside]
      rfl
    · contradiction

omit [DecidableEq Thread] in
theorem Hook.attached_locked (file : Log → List UInt8) : (Hook.attached file : Hook Thread).Locked where
  inside := fun _ => iff_of_false nofun nofun
  busy := fun _ => trivial

/-- The thread that an event is a step of. -/
def HookEvent.thread : HookEvent Thread → Thread
  | .installs t _ | .unhooks t | .calls t _ | .captures t | .enters t | .writes t _ | .leaves t => t

/-- A step of `t`, with this answer to whatever it writes. -/
def HookEvent.StepOf (answer : Answer) (t : Thread) (e : HookEvent Thread) : Prop :=
  e.thread = t ∧ ∀ u a, e = .writes u a → a = answer

/-- The thread in the critical section comes out of it by itself. -/
theorem Hook.Locked.releases (h : s.Locked) (answer : Answer) (howner : s.owner = some t) :
    ∃ s', Reaches Hook.step (HookEvent.StepOf answer t) s s' ∧ s'.owner = none ∧
      ∀ u, u ≠ t → s'.thread u = s.thread u := by
  have hout : ∀ (s : Hook Thread) c todo, s.thread t = .appending c .written todo →
      ∃ s', Reaches Hook.step (HookEvent.StepOf answer t) s s' ∧ s'.owner = none ∧
        ∀ u, u ≠ t → s'.thread u = s.thread u := by
    intro s c todo hth
    refine ⟨({ s with owner := none }).set t (.next c todo),
      .head (e := .leaves t) ⟨rfl, nofun⟩ ?_ (.refl _), rfl, fun u hu => Function.update_of_ne hu _ _⟩
    simp only [Hook.step, hth]
  have hinside := (h.inside t).mpr howner
  have hbusy := h.busy t
  cases hth : s.thread t with
  | away | called c =>
    rw [hth] at hinside
    contradiction
  | appending c phase todo =>
    rw [hth] at hinside hbusy
    cases phase with
    | waiting => contradiction
    | written => exact hout s c todo hth
    | inside =>
      cases todo with
      | nil => exact absurd rfl hbusy
      | cons a todo =>
        obtain ⟨s', hreaches, hnone, hframe⟩ := hout (({ s with
          file := Function.update s.file a.path (s.file a.path ++ answer.written a.text) }).set t
            (.appending c .written todo)) c todo (Function.update_self ..)
        refine ⟨s', .head (e := .writes t answer) ⟨rfl, ?_⟩ ?_ hreaches, hnone, fun u hu => ?_⟩
        · rintro u b hb
          cases hb
          rfl
        · simp only [Hook.step, hth]
        · rw [hframe u hu]
          exact Function.update_of_ne hu _ _

/-- With the critical section free, a thread appends what it has to and goes. -/
theorem Hook.next_returns (answer : Answer) (howner : s.owner = none) {c : Option Call}
    {todo : List Append} (hth : s.thread t = .next c todo) :
    ∃ s', Reaches Hook.step (HookEvent.StepOf answer t) s s' ∧ s'.thread t = .away := by
  induction todo generalizing s with
  | nil => exact ⟨s, .refl s, hth⟩
  | cons a todo ih =>
    replace hth : s.thread t = .appending c .waiting (a :: todo) := hth
    let entered := ({ s with owner := some t } : Hook Thread).set t (.appending c .inside (a :: todo))
    let wrote := ({ entered with
      file := Function.update s.file a.path (s.file a.path ++ answer.written a.text) }).set t
        (.appending c .written todo)
    let left := ({ wrote with owner := none }).set t (.next c todo)
    have henters : s.step (.enters t) = some entered := by simp only [Hook.step, hth, howner]; rfl
    have hinside : entered.thread t = .appending c .inside (a :: todo) := Function.update_self ..
    have hwrites : entered.step (.writes t answer) = some wrote := by
      simp only [Hook.step, hinside]
      rfl
    have hwritten : wrote.thread t = .appending c .written todo := Function.update_self ..
    have hleaves : wrote.step (.leaves t) = some left := by
      simp only [Hook.step, hwritten]
      rfl
    obtain ⟨s', hreaches, haway⟩ := @ih left rfl (Function.update_self ..)
    have hanswer : HookEvent.StepOf answer t (.writes t answer) := by
      refine ⟨rfl, ?_⟩
      rintro u b hb
      cases hb
      rfl
    refine ⟨s', .head (e := .enters t) ⟨rfl, nofun⟩ henters (.head hanswer hwrites ?_), haway⟩
    exact .head (e := .leaves t) ⟨rfl, nofun⟩ hleaves hreaches

/-- Over every run, and whatever becomes of the files: a thread can go on until it is out of the DLL,
if only the thread in the critical section moves beside it. -/
theorem hook_returns {file : Log → List UInt8} {es : List (HookEvent Thread)}
    (hrun : runEvents Hook.step (.attached file) es = some s) (answer : Answer) (t : Thread) :
    ∃ s', Reaches Hook.step
      (fun e => e.StepOf answer t ∨ ∃ u, s.owner = some u ∧ e.StepOf answer u) s s' ∧
      s'.thread t = .away := by
  have hlocked : s.Locked :=
    runEvents_invariant (fun _ => True) (fun _ _ _ _ h hstep => Hook.Locked.step h hstep)
      (Hook.attached_locked file) (fun _ _ => trivial) hrun
  obtain ⟨m, hreaches, hnone, hm⟩ : ∃ m, Reaches Hook.step
      (fun e => e.StepOf answer t ∨ ∃ u, s.owner = some u ∧ e.StepOf answer u) s m ∧
      m.owner = none ∧ m.Locked := by
    cases howner : s.owner with
    | none => exact ⟨s, .refl s, howner, hlocked⟩
    | some u =>
      obtain ⟨m, hreaches, hnone, -⟩ := hlocked.releases answer howner
      obtain ⟨fs, hfs, hm⟩ := hreaches
      refine ⟨m, ⟨fs, fun e he => .inr ⟨u, rfl, hfs e he⟩, hm⟩, hnone, ?_⟩
      exact runEvents_invariant (fun _ => True) (fun _ _ _ _ h hstep => Hook.Locked.step h hstep)
        hlocked (fun _ _ => trivial) hm
  suffices hreturns : ∃ s', Reaches Hook.step (HookEvent.StepOf answer t) m s' ∧
      s'.thread t = .away by
    obtain ⟨s', hreaches', haway⟩ := hreturns
    exact ⟨s', hreaches.trans (hreaches'.mono fun _ h => .inl h), haway⟩
  have hout : ¬ (m.thread t).inside = true := by
    rw [hm.inside t, hnone]
    nofun
  have hbusy := hm.busy t
  cases hth : m.thread t with
  | away => exact ⟨m, .refl m, hth⟩
  | called c =>
    cases hkey : (if c.rc = 0 then c.master else none) with
    | none =>
      refine ⟨m.set t .away, .head (e := .captures t) ⟨rfl, nofun⟩ ?_ (.refl _),
        Function.update_self ..⟩
      simp only [Hook.step, hth, hkey]
    | some key =>
      have hstep : m.step (.captures t) = some (({ m with calib := m.calib + 1 }).set t
          (.next (some c) (hookAppends (m.calib + 1 ≤ 3) key c.params))) := by
        simp only [Hook.step, hth, hkey]
      obtain ⟨s', hreaches', haway⟩ := @Hook.next_returns Thread _ (({ m with
        calib := m.calib + 1 }).set t
          (.next (some c) (hookAppends (m.calib + 1 ≤ 3) key c.params))) t answer hnone _ _
            (Function.update_self ..)
      exact ⟨s', .head (e := .captures t) ⟨rfl, nofun⟩ hstep hreaches', haway⟩
  | appending c phase todo =>
    rw [hth] at hout hbusy
    cases phase with
    | waiting =>
      refine @Hook.next_returns _ _ _ _ answer hnone c todo ?_
      rw [hth, HookThread.next, if_neg hbusy]
    | inside | written => exact absurd rfl hout

end

/-- One thread is in the critical section, in front of which the other waits. -/
theorem hook_returns_twoThreads : ∃ s s', runEvents Hook.step (.attached fun _ => [])
      (twoThreads.take 8 ++ [.enters false]) = some s ∧ s.owner = some false ∧
      Reaches Hook.step (fun e => e.StepOf .refused true ∨
        ∃ u, s.owner = some u ∧ e.StepOf .refused u) s s' ∧ s'.thread true = .away := by
  obtain ⟨s, hs⟩ : ∃ s, runEvents Hook.step (.attached fun _ => [])
      (twoThreads.take 8 ++ [.enters false]) = some s :=
    Option.isSome_iff_exists.mp (by decide +kernel)
  have howner : (runEvents Hook.step (.attached fun _ => [])
      (twoThreads.take 8 ++ [.enters false])).map (fun s => s.owner) = some (some false) := by
    decide +kernel
  rw [hs] at howner
  obtain ⟨s', hreaches, haway⟩ := hook_returns hs .refused true
  exact ⟨s, s', hs, Option.some.inj howner, hreaches, haway⟩

end NetDebugger.Tls
