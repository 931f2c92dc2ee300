import Mathlib.Data.List.Induction
import Mathlib.Order.Basic

/-! Runs of a deterministic event system. `step s e` is the state after the event `e`, or `none`
where `e` cannot happen in `s`. The rules: an invariant of a step is one of a run, a relation
that a step only climbs is climbed by a run, and a simulation of steps is one of runs. Each has
its events or its states restricted where the steps are. -/

namespace NetDebugger.Lib

variable {σ ε τ δ : Type*}

/-- The state after a list of events, when each of them can happen. -/
def runEvents (step : σ → ε → Option σ) : σ → List ε → Option σ
  | s, [] => some s
  | s, e :: es => (step s e).bind fun t => runEvents step t es

@[simp] theorem runEvents_nil (step : σ → ε → Option σ) (s : σ) : runEvents step s [] = some s := rfl

theorem runEvents_cons {step : σ → ε → Option σ} {s t : σ} {e : ε} {es : List ε} :
    runEvents step s (e :: es) = some t ↔ ∃ m, step s e = some m ∧ runEvents step m es = some t :=
  Option.bind_eq_some_iff

theorem runEvents_append {step : σ → ε → Option σ} {s t : σ} {es fs : List ε} :
    runEvents step s (es ++ fs) = some t ↔
      ∃ m, runEvents step s es = some m ∧ runEvents step m fs = some t := by
  induction es generalizing s with
  | nil => simp
  | cons e es ih =>
    rw [List.cons_append, runEvents_cons]
    constructor
    · rintro ⟨m, hm, hrest⟩
      obtain ⟨m', hm', hfs⟩ := ih.mp hrest
      exact ⟨m', runEvents_cons.mpr ⟨m, hm, hm'⟩, hfs⟩
    · rintro ⟨m', hes, hfs⟩
      obtain ⟨m, hm, hm'⟩ := runEvents_cons.mp hes
      exact ⟨m, hm, ih.mpr ⟨m', hm', hfs⟩⟩

/-- Where every event can happen, so can every list of them. -/
theorem runEvents_total {step : σ → ε → Option σ} (h : ∀ s e, ∃ t, step s e = some t) (s : σ)
    (es : List ε) : ∃ t, runEvents step s es = some t := by
  induction es generalizing s with
  | nil => exact ⟨s, rfl⟩
  | cons e es ih =>
    obtain ⟨m, hm⟩ := h s e
    obtain ⟨t, ht⟩ := ih m
    exact ⟨t, runEvents_cons.mpr ⟨m, hm, ht⟩⟩

/-- What every step of allowed events preserves holds after every run of them. -/
theorem runEvents_invariant {step : σ → ε → Option σ} (Allowed : ε → Prop) {Inv : σ → Prop}
    (hstep : ∀ s e t, Allowed e → Inv s → step s e = some t → Inv t) {s t : σ} {es : List ε}
    (hs : Inv s) (hes : ∀ e ∈ es, Allowed e) (hrun : runEvents step s es = some t) : Inv t := by
  induction es generalizing s with
  | nil => exact Option.some.inj hrun ▸ hs
  | cons e es ih =>
    obtain ⟨m, hm, hrest⟩ := runEvents_cons.mp hrun
    exact ih (hstep s e m (hes e (List.mem_cons_self ..)) hs hm)
      (fun f hf => hes f (List.mem_cons_of_mem _ hf)) hrest

/-- A run climbs what its steps climb. -/
theorem runEvents_climbs {step : σ → ε → Option σ} {R : σ → σ → Prop} (hrefl : ∀ s, R s s)
    (htrans : ∀ s t u, R s t → R t u → R s u) (hstep : ∀ s e t, step s e = some t → R s t) {s t : σ}
    {es : List ε} (hrun : runEvents step s es = some t) : R s t := by
  induction es generalizing s with
  | nil => exact Option.some.inj hrun ▸ hrefl s
  | cons e es ih =>
    obtain ⟨m, hm, hrest⟩ := runEvents_cons.mp hrun
    exact htrans s m t (hstep s e m hm) (ih hrest)

/-- A forward simulation: related states stay related, the abstract side answering each concrete
event with a list of its own. -/
theorem runEvents_simulation {step : σ → ε → Option σ} {astep : τ → δ → Option τ}
    (Allowed : ε → Prop) {R : σ → τ → Prop}
    (hstep : ∀ s a e t, Allowed e → R s a → step s e = some t →
      ∃ ds b, runEvents astep a ds = some b ∧ R t b)
    {s t : σ} {a : τ} {es : List ε} (hs : R s a) (hes : ∀ e ∈ es, Allowed e)
    (hrun : runEvents step s es = some t) : ∃ ds b, runEvents astep a ds = some b ∧ R t b := by
  induction es generalizing s a with
  | nil => exact ⟨[], a, rfl, Option.some.inj hrun ▸ hs⟩
  | cons e es ih =>
    obtain ⟨m, hm, hrest⟩ := runEvents_cons.mp hrun
    obtain ⟨ds, b, hds, hb⟩ := hstep s a e m (hes e (List.mem_cons_self ..)) hs hm
    obtain ⟨ds', c, hds', hc⟩ := ih hb (fun f hf => hes f (List.mem_cons_of_mem _ hf)) hrest
    exact ⟨ds ++ ds', c, runEvents_append.mpr ⟨b, hds, hds'⟩, hc⟩

/-- Every event of a run meets a condition on the state it happens in. -/
def EachStep (step : σ → ε → Option σ) (P : σ → ε → Prop) : σ → List ε → Prop
  | _, [] => True
  | s, e :: es => P s e ∧ ∀ t ∈ step s e, EachStep step P t es

instance EachStep.decidable (step : σ → ε → Option σ) (P : σ → ε → Prop)
    [∀ s e, Decidable (P s e)] : ∀ s es, Decidable (EachStep step P s es)
  | _, [] => isTrue trivial
  | s, e :: es =>
    haveI := fun t => EachStep.decidable step P t es
    inferInstanceAs (Decidable (P s e ∧ ∀ t ∈ step s e, EachStep step P t es))

/-- An invariant that only the steps meeting a condition preserve. -/
theorem runEvents_invariant_of {step : σ → ε → Option σ} {P : σ → ε → Prop} {Inv : σ → Prop}
    (hstep : ∀ s e t, P s e → Inv s → step s e = some t → Inv t) {s t : σ} {es : List ε}
    (hs : Inv s) (hes : EachStep step P s es) (hrun : runEvents step s es = some t) : Inv t := by
  induction es generalizing s with
  | nil => exact Option.some.inj hrun ▸ hs
  | cons e es ih =>
    obtain ⟨m, hm, hrest⟩ := runEvents_cons.mp hrun
    exact ih (hstep s e m hes.1 hs hm) (hes.2 m hm) hrest

/-- Where an allowed step preserves an invariant exactly when it meets a condition, the states of a
run satisfy the invariant exactly when its steps all meet the condition. -/
theorem runEvents_invariant_iff_of {step : σ → ε → Option σ} (Allowed : ε → Prop)
    {P : σ → ε → Prop} {Inv : σ → Prop}
    (hstep : ∀ s e t, Allowed e → Inv s → step s e = some t → (Inv t ↔ P s e)) {s t : σ}
    {es : List ε} (hs : Inv s) (hes : ∀ e ∈ es, Allowed e) (hrun : runEvents step s es = some t) :
    (∀ pre m, pre <+: es → runEvents step s pre = some m → Inv m) ↔ EachStep step P s es := by
  induction es generalizing s with
  | nil =>
    refine ⟨fun _ => trivial, fun _ pre m hpre hm => ?_⟩
    rw [List.prefix_nil.mp hpre] at hm
    exact Option.some.inj hm ▸ hs
  | cons e es ih =>
    obtain ⟨u, hu, hrest⟩ := runEvents_cons.mp hrun
    have hone : runEvents step s [e] = some u := runEvents_cons.mpr ⟨u, hu, rfl⟩
    have he := hes e (List.mem_cons_self ..)
    have hes' : ∀ f ∈ es, Allowed f := fun f hf => hes f (List.mem_cons_of_mem _ hf)
    constructor
    · intro hall
      have hinv : Inv u := hall [e] u (List.prefix_append [e] es) hone
      refine ⟨(hstep s e u he hs hu).mp hinv, fun v hv => ?_⟩
      obtain rfl : u = v := Option.some.inj (hu.symm.trans hv)
      apply (ih hinv hes' hrest).mp
      intro pre m hpre hm
      exact hall (e :: pre) m (List.cons_prefix_cons.mpr ⟨rfl, hpre⟩)
        (runEvents_cons.mpr ⟨u, hu, hm⟩)
    · rintro ⟨hP, heach⟩ pre m hpre hm
      have hinv : Inv u := (hstep s e u he hs hu).mpr hP
      cases pre with
      | nil => exact Option.some.inj hm ▸ hs
      | cons f pre =>
        obtain ⟨rfl, htail⟩ := List.cons_prefix_cons.mp hpre
        obtain ⟨v, hv, hm'⟩ := runEvents_cons.mp hm
        obtain rfl : u = v := Option.some.inj (hu.symm.trans hv)
        exact (ih hinv hes' hrest).mpr (heach u hu) pre m htail hm'

/-- `runEvents_invariant_iff_of` with every event allowed. -/
theorem runEvents_invariant_iff {step : σ → ε → Option σ} {P : σ → ε → Prop} {Inv : σ → Prop}
    (hstep : ∀ s e t, Inv s → step s e = some t → (Inv t ↔ P s e)) {s t : σ} {es : List ε}
    (hs : Inv s) (hrun : runEvents step s es = some t) :
    (∀ pre m, pre <+: es → runEvents step s pre = some m → Inv m) ↔ EachStep step P s es :=
  runEvents_invariant_iff_of (fun _ => True) (fun s e t _ hs ht => hstep s e t hs ht) hs
    (fun _ _ => trivial) hrun

/-- `runEvents_invariant_iff` beside facts that the steps meeting the condition preserve. -/
theorem runEvents_invariant_iff_with {step : σ → ε → Option σ} {P : σ → ε → Prop}
    {Aux Inv : σ → Prop} (haux : ∀ s e t, Aux s → P s e → step s e = some t → Aux t)
    (hstep : ∀ s e t, Aux s → Inv s → step s e = some t → (Inv t ↔ P s e)) {s t : σ}
    {es : List ε} (hs : Aux s) (hinv : Inv s) (hrun : runEvents step s es = some t) :
    (∀ pre m, pre <+: es → runEvents step s pre = some m → Inv m) ↔ EachStep step P s es := by
  have hboth : ∀ s e t, Aux s ∧ Inv s → step s e = some t → (Aux t ∧ Inv t ↔ P s e) := by
    intro s e t hs ht
    have hiff := hstep s e t hs.1 hs.2 ht
    exact ⟨fun h => hiff.mp h.2, fun hP => ⟨haux s e t hs.1 hP ht, hiff.mpr hP⟩⟩
  constructor
  · intro hall
    induction es generalizing s with
    | nil => trivial
    | cons e es ih =>
      obtain ⟨u, hu, hrest⟩ := runEvents_cons.mp hrun
      have hone : runEvents step s [e] = some u := runEvents_cons.mpr ⟨u, hu, rfl⟩
      have hinvu : Inv u := hall [e] u (List.prefix_append [e] es) hone
      have hP : P s e := (hstep s e u hs hinv hu).mp hinvu
      refine ⟨hP, fun v hv => ?_⟩
      obtain rfl : u = v := Option.some.inj (hu.symm.trans hv)
      apply ih (haux s e u hs hP hu) hinvu hrest
      intro pre m hpre hm
      exact hall (e :: pre) m (List.cons_prefix_cons.mpr ⟨rfl, hpre⟩)
        (runEvents_cons.mpr ⟨u, hu, hm⟩)
  · intro heach pre m hpre hm
    exact ((runEvents_invariant_iff hboth ⟨hs, hinv⟩ hrun).mpr heach pre m hpre hm).2

/-! ### Conditions on the steps of a run -/

theorem eachStep_iff {step : σ → ε → Option σ} {P : σ → ε → Prop} {s : σ} {es : List ε} :
    EachStep step P s es ↔
      ∀ pre e m, pre ++ [e] <+: es → runEvents step s pre = some m → P m e := by
  induction es generalizing s with
  | nil =>
    refine iff_of_true trivial fun pre e m h => ?_
    simp at h
  | cons e es ih =>
    constructor
    · rintro ⟨hP, heach⟩ pre f m hpre hm
      cases pre with
      | nil =>
        obtain rfl := Option.some.inj hm
        obtain ⟨rfl, -⟩ := List.cons_prefix_cons.mp hpre
        exact hP
      | cons g pre =>
        obtain ⟨rfl, htail⟩ := List.cons_prefix_cons.mp hpre
        obtain ⟨u, hu, hm⟩ := runEvents_cons.mp hm
        exact ih.mp (heach u hu) pre f m htail hm
    · intro h
      refine ⟨h [] e s (List.cons_prefix_cons.mpr ⟨rfl, List.nil_prefix⟩) rfl, fun u hu => ?_⟩
      apply ih.mpr
      intro pre f m hpre hm
      exact h (e :: pre) f m (List.cons_prefix_cons.mpr ⟨rfl, hpre⟩)
        (runEvents_cons.mpr ⟨u, hu, hm⟩)

theorem eachStep_append {step : σ → ε → Option σ} {P : σ → ε → Prop} {s : σ} {es fs : List ε} :
    EachStep step P s (es ++ fs) ↔
      EachStep step P s es ∧ ∀ t, runEvents step s es = some t → EachStep step P t fs := by
  induction es generalizing s with
  | nil => simp [EachStep]
  | cons e es ih =>
    constructor
    · rintro ⟨hP, heach⟩
      refine ⟨⟨hP, fun u hu => (ih.mp (heach u hu)).1⟩, fun t ht => ?_⟩
      obtain ⟨u, hu, hrest⟩ := runEvents_cons.mp ht
      exact (ih.mp (heach u hu)).2 t hrest
    · rintro ⟨⟨hP, heach⟩, hfs⟩
      refine ⟨hP, fun u hu => ih.mpr ⟨heach u hu, fun t ht => ?_⟩⟩
      exact hfs t (runEvents_cons.mpr ⟨u, hu, ht⟩)

/-- Conditions that say the same in the states of an invariant say the same of its runs. -/
theorem eachStep_congr {step : σ → ε → Option σ} {P Q : σ → ε → Prop} (Inv : σ → Prop)
    (hstep : ∀ s e t, Inv s → step s e = some t → Inv t)
    (hiff : ∀ s e, Inv s → (P s e ↔ Q s e)) {s : σ} (hs : Inv s) (es : List ε) :
    EachStep step P s es ↔ EachStep step Q s es := by
  induction es generalizing s with
  | nil => exact Iff.rfl
  | cons e es ih =>
    have htail : ∀ t ∈ step s e, (EachStep step P t es ↔ EachStep step Q t es) := fun t ht =>
      ih (hstep s e t hs ht)
    exact and_congr (hiff s e hs) (forall₂_congr htail)

/-- The system with a history variable, which `after` carries along each step. -/
def withHistory (step : σ → ε → Option σ) (after : τ → σ → ε → τ) (s : σ × τ) (e : ε) :
    Option (σ × τ) :=
  (step s.1 e).map fun t => (t, after s.2 s.1 e)

theorem runEvents_of_withHistory {step : σ → ε → Option σ} {after : τ → σ → ε → τ} {s t : σ}
    {h h' : τ} {es : List ε} (hrun : runEvents (withHistory step after) (s, h) es = some (t, h')) :
    runEvents step s es = some t := by
  induction es generalizing s h with
  | nil => exact congrArg some (Prod.mk.inj (Option.some.inj hrun)).1
  | cons e es ih =>
    obtain ⟨m, hm, hrest⟩ := runEvents_cons.mp hrun
    obtain ⟨u, hu, rfl⟩ := Option.map_eq_some_iff.mp hm
    exact runEvents_cons.mpr ⟨u, hu, ih hrest⟩

/-- A history variable does not change the runs. -/
theorem eachStep_withHistory {step : σ → ε → Option σ} (after : τ → σ → ε → τ)
    {P : σ → ε → Prop} (s : σ) (h : τ) (es : List ε) :
    EachStep (withHistory step after) (fun s e => P s.1 e) (s, h) es ↔ EachStep step P s es := by
  induction es generalizing s h with
  | nil => exact Iff.rfl
  | cons e es ih =>
    refine and_congr_right fun _ => ?_
    constructor
    · intro hall t ht
      exact (ih t _).mp (hall (t, after h s e) (Option.map_eq_some_iff.mpr ⟨t, ht, rfl⟩))
    · intro hall t ht
      obtain ⟨u, hu, rfl⟩ := Option.map_eq_some_iff.mp ht
      exact (ih u _).mpr (hall u hu)

/-- `runEvents_invariant_iff` for systems whose state is a function of the history. -/
theorem history_invariant_iff {Inv : List ε → Prop} {P : List ε → ε → Prop} (hnil : Inv [])
    (hstep : ∀ pre e, Inv pre → (Inv (pre ++ [e]) ↔ P pre e)) (es : List ε) :
    (∀ pre, pre <+: es → Inv pre) ↔ ∀ pre e, pre ++ [e] <+: es → P pre e := by
  induction es using List.reverseRecOn with
  | nil =>
    refine ⟨fun _ pre e h => ?_, fun _ pre h => ?_⟩
    · simp at h
    · rw [List.prefix_nil.mp h]
      exact hnil
  | append_singleton es e ih =>
    constructor
    · intro h pre f hpre
      have hinv : Inv pre := h pre ((List.prefix_append pre [f]).trans hpre)
      exact (hstep pre f hinv).mp (h _ hpre)
    · intro h pre hpre
      have hes : ∀ pre, pre <+: es → Inv pre :=
        ih.mpr fun pre f hpre => h pre f (hpre.trans (List.prefix_append _ _))
      rcases List.prefix_concat_iff.mp hpre with rfl | hpre
      · exact (hstep es e (hes es (List.prefix_refl _))).mpr (h es e (List.prefix_refl _))
      · exact hes pre hpre

/-! ### What can be reached -/

/-- Allowed events lead from `s` to `t`. -/
def Reaches (step : σ → ε → Option σ) (Allowed : ε → Prop) (s t : σ) : Prop :=
  ∃ es, (∀ e ∈ es, Allowed e) ∧ runEvents step s es = some t

section

variable {step : σ → ε → Option σ} {Allowed : ε → Prop} {s t u : σ}

theorem Reaches.refl (s : σ) : Reaches step Allowed s s := ⟨[], nofun, rfl⟩

theorem Reaches.head {e : ε} (he : Allowed e) (hstep : step s e = some t)
    (h : Reaches step Allowed t u) : Reaches step Allowed s u := by
  obtain ⟨es, hes, hrun⟩ := h
  exact ⟨e :: es, List.forall_mem_cons.mpr ⟨he, hes⟩, runEvents_cons.mpr ⟨t, hstep, hrun⟩⟩

theorem Reaches.trans (h : Reaches step Allowed s t) (h' : Reaches step Allowed t u) :
    Reaches step Allowed s u := by
  obtain ⟨es, hes, hrun⟩ := h
  obtain ⟨fs, hfs, hrun'⟩ := h'
  exact ⟨es ++ fs, List.forall_mem_append.mpr ⟨hes, hfs⟩, runEvents_append.mpr ⟨t, hrun, hrun'⟩⟩

theorem Reaches.mono {Allowed' : ε → Prop} (h : Reaches step Allowed s t)
    (hmono : ∀ e, Allowed e → Allowed' e) : Reaches step Allowed' s t := by
  obtain ⟨es, hes, hrun⟩ := h
  exact ⟨es, fun e he => hmono e (hes e he), hrun⟩

end

end NetDebugger.Lib
