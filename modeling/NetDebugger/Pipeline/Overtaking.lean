import NetDebugger.Pipeline.Clock

/-! Which runs put the ring out of order.  The clock is read in front of the lock, so a caller can be
overtaken by one that has read a later time; the marks of a run say in which order the callers read the
clock and got their places. -/

namespace NetDebugger.Pipeline

open Lib NetDebugger.Ring

/-- What can put the ring out of order: the clock moves on, a caller reads it, or a caller takes the
lock and its record finds room. -/
inductive Mark
  | moved
  | read (i : Nat)
  | placed (i : Nat)
deriving DecidableEq

instance (s : RingState) (c : WriteCall) : Decidable (Accepts s c) :=
  decidable_of_iff (c.recLen ≤ s.dataSize ∧ s.header.readPos ≤ s.writePos ∧
      s.writePos - s.header.readPos ≤ s.dataSize ∧ footprint s.dataSize s.writePos c.recLen ≤
        s.dataSize - (s.writePos - s.header.readPos))
    ⟨fun h => ⟨h.1, h.2.1, h.2.2.1, h.2.2.2⟩, fun h => ⟨h.size, h.rp_le, h.used_le, h.room⟩⟩

/-- The marks so far, and those of a step. -/
def Timed.mark (ms : List Mark) (y : Timed) : Tick → List Mark
  | .tick now => if y.clock < now then ms ++ [.moved] else ms
  | .stamp i => ms ++ [.read i]
  | .lock i =>
    match y.callers[i]? with
    | some (.stamped c) => if Accepts y.system.ring c then ms ++ [.placed i] else ms
    | _ => ms
  | _ => ms

/-- Caller `i` reads the clock, the clock moves on, caller `j` reads it, and `j` gets its place in the
ring in front of `i`. -/
def Overtakes (ms : List Mark) (j i : Nat) : Prop :=
  [.read i, .moved, .read j, .placed j, .placed i].Sublist ms

variable {utf16ToUtf8 : List UInt16 → List UInt8}

/-! ### Marks and times -/

/-- A list that ends in `x` lies in one that ends in `m`. -/
theorem concat_sublist_iff {α : Type*} {xs ms : List α} {x m : α} :
    (xs ++ [x]).Sublist (ms ++ [m]) ↔ (xs ++ [x]).Sublist ms ∨ x = m ∧ xs.Sublist ms := by
  have h : (x :: xs.reverse).Sublist (m :: ms.reverse) ↔
      (x :: xs.reverse).Sublist ms.reverse ∨ x = m ∧ xs.reverse.Sublist ms.reverse :=
    List.cons_sublist_cons'
  rwa [← List.reverse_concat, ← List.reverse_concat, List.reverse_sublist, List.reverse_sublist,
    List.reverse_sublist] at h

section Marks

variable {ms : List Mark} {m : Mark} {i j : Nat}

theorem moved_concat : [.read i, .moved].Sublist (ms ++ [m]) ↔
    [.read i, .moved].Sublist ms ∨ .moved = m ∧ [.read i].Sublist ms :=
  @concat_sublist_iff Mark [.read i] ms .moved m

theorem later_concat : [.read i, .moved, .read j].Sublist (ms ++ [m]) ↔
    [.read i, .moved, .read j].Sublist ms ∨ .read j = m ∧ [.read i, .moved].Sublist ms :=
  @concat_sublist_iff Mark [.read i, .moved] ms (.read j) m

theorem ahead_concat : [.read i, .moved, .read j, .placed j].Sublist (ms ++ [m]) ↔
    [.read i, .moved, .read j, .placed j].Sublist ms ∨
      .placed j = m ∧ [.read i, .moved, .read j].Sublist ms :=
  @concat_sublist_iff Mark [.read i, .moved, .read j] ms (.placed j) m

theorem overtakes_concat : Overtakes (ms ++ [m]) j i ↔
    Overtakes ms j i ∨ .placed i = m ∧ [.read i, .moved, .read j, .placed j].Sublist ms :=
  @concat_sublist_iff Mark [.read i, .moved, .read j, .placed j] ms (.placed i) m

end Marks

/-- The marks order the times that callers have read, and those in the ring. -/
structure Dated (y : Timed) (ms : List Mark) : Prop where
  unread : ∀ i, (∀ x ∈ y.callers[i]?, ∃ c, x = .called c) → .read i ∉ ms
  read : ∀ i c, y.callers[i]? = some (.stamped c) → .read i ∈ ms ∧ c.timestamp ≤ y.clock
  moved : ∀ i c, y.callers[i]? = some (.stamped c) →
    (c.timestamp < y.clock ↔ [.read i, .moved].Sublist ms)
  placed : ∀ a ∈ y.placed, a.timestamp ≤ y.clock
  later : ∀ i c j c', y.callers[i]? = some (.stamped c) → y.callers[j]? = some (.stamped c') →
    (c.timestamp < c'.timestamp ↔ [.read i, .moved, .read j].Sublist ms)
  ahead : ∀ i c, y.callers[i]? = some (.stamped c) →
    ((∃ a ∈ y.placed, c.timestamp < a.timestamp) ↔
      ∃ j, [.read i, .moved, .read j, .placed j].Sublist ms)

section Dated

variable {y z : Timed} {ms : List Mark} {i : Nat} {c : WriteCall}

theorem dated_initial (s : RingState) (clock : UInt64) (cap packetCap : Nat) :
    Dated (Timed.initial s clock cap packetCap) [] := by
  constructor <;> simp [Timed.initial, Timed.placed, System.initial, inFlight]

/-- Nothing that the marks speak of has changed. -/
theorem Dated.frame (h : Dated y ms) (hcallers : z.callers = y.callers) (hclock : z.clock = y.clock)
    (hplaced : z.placed = y.placed) : Dated z ms := by
  constructor
  case unread => rw [hcallers]; exact h.unread
  case read => rw [hcallers, hclock]; exact h.read
  case moved => rw [hcallers, hclock]; exact h.moved
  case placed => rw [hplaced, hclock]; exact h.placed
  case later => rw [hcallers]; exact h.later
  case ahead => rw [hcallers, hplaced]; exact h.ahead

theorem Dated.tick (h : Dated y ms) {now : UInt64} (hmoved : y.clock < now) :
    Dated { y with clock := now } (ms ++ [.moved]) := by
  have hle : ∀ t, t ≤ y.clock → t < now := fun t ht => UInt64.lt_of_le_of_lt ht hmoved
  constructor
  case unread =>
    intro i hi
    simpa using h.unread i hi
  case read =>
    intro i c hi
    obtain ⟨hread, hclock⟩ := h.read i c hi
    exact ⟨List.mem_append_left _ hread, UInt64.le_of_lt (hle _ hclock)⟩
  case moved =>
    intro i c hi
    obtain ⟨hread, hclock⟩ := h.read i c hi
    exact iff_of_true (hle _ hclock)
      (moved_concat.mpr (.inr ⟨rfl, List.singleton_sublist.mpr hread⟩))
  case placed => exact fun a ha => UInt64.le_of_lt (hle _ (h.placed a ha))
  case later =>
    intro i c j c' hi hj
    simpa [later_concat] using h.later i c j c' hi hj
  case ahead =>
    intro i c hi
    simp only [ahead_concat, reduceCtorEq, false_and, or_false]
    exact h.ahead i c hi

theorem Dated.arrive (h : Dated y ms) (c : WriteCall) :
    Dated { y with callers := y.callers ++ [.called c] } ms := by
  have hold : ∀ (i : Nat) (c' : WriteCall), (y.callers ++ [.called c])[i]? = some (Caller.stamped c') →
      y.callers[i]? = some (Caller.stamped c') := by
    intro i c' hi
    by_cases hlt : i < y.callers.length
    · rwa [List.getElem?_append_left hlt] at hi
    · rw [List.getElem?_append_right (Nat.le_of_not_lt hlt), List.getElem?_singleton] at hi
      split at hi <;> cases hi
  constructor
  case unread =>
    intro i hi
    refine h.unread i fun x hx => hi x ?_
    obtain ⟨hlt, -⟩ := List.getElem?_eq_some_iff.mp hx
    exact (List.getElem?_append_left hlt).trans hx
  case read => exact fun i c hi => h.read i c (hold i c hi)
  case moved => exact fun i c hi => h.moved i c (hold i c hi)
  case placed => exact h.placed
  case later => exact fun i c j c' hi hj => h.later i c j c' (hold i c hi) (hold j c' hj)
  case ahead => exact fun i c hi => h.ahead i c (hold i c hi)

theorem getElem?_set_some {α : Type*} {xs : List α} {i k : Nat} {x z : α}
    (h : (xs.set i x)[k]? = some z) : k = i ∧ z = x ∨ k ≠ i ∧ xs[k]? = some z := by
  rw [List.getElem?_set] at h
  by_cases hk : i = k
  · rw [if_pos hk] at h
    split at h
    · exact .inl ⟨hk.symm, (Option.some.inj h).symm⟩
    · cases h
  · rw [if_neg hk] at h
    exact .inr ⟨Ne.symm hk, h⟩

/-- A caller that reads the clock comes behind all marks. -/
theorem Dated.stamp (h : Dated y ms) (hi : y.callers[i]? = some (.called c)) :
    Dated { y with callers := y.callers.set i (.stamped { c with timestamp := y.clock }) }
      (ms ++ [.read i]) := by
  have hunread : .read i ∉ ms := h.unread i fun x hx => ⟨c, Option.some.inj (hx.symm.trans hi)⟩
  have hnew : ∀ l, ¬(Mark.read i :: l).Sublist ms := fun l hl =>
    hunread (hl.subset (List.mem_cons_self ..))
  have hirrefl := UInt64.lt_irrefl y.clock
  have hcases : ∀ k c', (y.callers.set i (.stamped { c with timestamp := y.clock }))[k]? =
      some (Caller.stamped c') →
      k = i ∧ c'.timestamp = y.clock ∨ k ≠ i ∧ y.callers[k]? = some (Caller.stamped c') := by
    intro k c' hk
    rcases getElem?_set_some hk with ⟨rfl, heq⟩ | hk
    · cases heq
      exact .inl ⟨rfl, rfl⟩
    · exact .inr hk
  constructor
  case unread =>
    intro k hk
    obtain ⟨hlt, -⟩ := List.getElem?_eq_some_iff.mp hi
    have hne : k ≠ i := by
      rintro rfl
      obtain ⟨c', hc'⟩ := hk _ (List.getElem?_set_self hlt)
      cases hc'
    have hold : .read k ∉ ms := h.unread k fun x hx => hk x ((List.getElem?_set_ne hne.symm).trans hx)
    simpa [hne] using hold
  case read =>
    intro k c' hk
    rcases hcases k c' hk with ⟨rfl, htime⟩ | ⟨-, hk⟩
    · exact ⟨List.mem_append_right _ (List.mem_singleton_self _), UInt64.le_of_eq htime⟩
    · obtain ⟨hread, hle⟩ := h.read k c' hk
      exact ⟨List.mem_append_left _ hread, hle⟩
  case moved =>
    intro k c' hk
    rw [moved_concat]
    rcases hcases k c' hk with ⟨rfl, htime⟩ | ⟨-, hk⟩
    · simpa [htime] using hnew _
    · simpa using h.moved k c' hk
  case placed => exact h.placed
  case later =>
    intro k c₁ l c₂ hk hl
    rw [later_concat]
    rcases hcases k c₁ hk with ⟨rfl, htime⟩ | ⟨hne, hold⟩
    · have hle : c₂.timestamp ≤ y.clock := by
        rcases hcases l c₂ hl with ⟨-, htime'⟩ | ⟨-, hold⟩
        · exact UInt64.le_of_eq htime'
        · exact (h.read l c₂ hold).2
      refine iff_of_false ?_ ?_
      · rw [htime]
        exact UInt64.not_lt.mpr hle
      · simp [hnew]
    · rcases hcases l c₂ hl with ⟨rfl, htime'⟩ | ⟨hne', hold'⟩
      · rw [htime', h.moved k c₁ hold]
        refine ⟨fun hmoved => .inr ⟨rfl, hmoved⟩, ?_⟩
        rintro (hlater | ⟨-, hmoved⟩)
        · have hfront : [.read k, .moved].Sublist [Mark.read k, .moved, .read l] :=
            List.sublist_append_left [Mark.read k, .moved] [Mark.read l]
          exact hfront.trans hlater
        · exact hmoved
      · simpa [hne'] using h.later k c₁ l c₂ hold hold'
  case ahead =>
    intro k c' hk
    simp only [ahead_concat, reduceCtorEq, false_and, or_false]
    rcases hcases k c' hk with ⟨rfl, htime⟩ | ⟨-, hk⟩
    · refine iff_of_false ?_ fun ⟨j, hj⟩ => hnew _ hj
      rintro ⟨a, ha, hlt⟩
      rw [htime] at hlt
      exact absurd (h.placed a ha) (UInt64.not_le.mpr hlt)
    · exact h.ahead k c' hk

theorem stamped_of_done {k : Nat} {callers : List Caller} {c' : WriteCall}
    (hk : (callers.set i .done)[k]? = some (.stamped c')) : callers[k]? = some (.stamped c') := by
  rcases getElem?_set_some hk with ⟨-, heq⟩ | ⟨-, hk⟩
  · cases heq
  · exact hk

theorem Dated.unread_done (h : Dated y ms) (hlt : i < y.callers.length) :
    ∀ k, (∀ x ∈ (y.callers.set i .done)[k]?, ∃ c, x = .called c) → .read k ∉ ms := by
  intro k hk
  have hne : k ≠ i := by
    rintro rfl
    obtain ⟨c', hc'⟩ := hk _ (List.getElem?_set_self hlt)
    cases hc'
  exact h.unread k fun x hx => hk x ((List.getElem?_set_ne hne.symm).trans hx)

/-- A record that is dropped. -/
theorem Dated.dropped (h : Dated y ms) (hlt : i < y.callers.length) {s : System}
    (hplaced : ({ y with system := s, callers := y.callers.set i .done } : Timed).placed = y.placed) :
    Dated { y with system := s, callers := y.callers.set i .done } ms := by
  constructor
  case unread => exact h.unread_done hlt
  case read => exact fun k c' hk => h.read k c' (stamped_of_done hk)
  case moved => exact fun k c' hk => h.moved k c' (stamped_of_done hk)
  case placed => rw [hplaced]; exact h.placed
  case later => exact fun k c₁ l c₂ hk hl => h.later k c₁ l c₂ (stamped_of_done hk) (stamped_of_done hl)
  case ahead => rw [hplaced]; exact fun k c' hk => h.ahead k c' (stamped_of_done hk)

/-- A record that gets its place is later than what a waiting caller has read exactly when it is so by
the marks. -/
theorem Dated.placed_concat (h : Dated y ms) (hi : y.callers[i]? = some (.stamped c)) {s : System}
    (hplaced : ({ y with system := s, callers := y.callers.set i .done } : Timed).placed =
      y.placed ++ [c]) :
    Dated { y with system := s, callers := y.callers.set i .done } (ms ++ [.placed i]) := by
  obtain ⟨hlt, -⟩ := List.getElem?_eq_some_iff.mp hi
  constructor
  case unread =>
    intro k hk
    simpa using h.unread_done hlt k hk
  case read =>
    intro k c' hk
    obtain ⟨hread, hle⟩ := h.read k c' (stamped_of_done hk)
    exact ⟨List.mem_append_left _ hread, hle⟩
  case moved =>
    intro k c' hk
    simpa [moved_concat] using h.moved k c' (stamped_of_done hk)
  case placed =>
    rw [hplaced]
    intro a ha
    rcases List.mem_append.mp ha with ha | ha
    · exact h.placed a ha
    · exact List.mem_singleton.mp ha ▸ (h.read i c hi).2
  case later =>
    intro k c₁ l c₂ hk hl
    simpa [later_concat] using h.later k c₁ l c₂ (stamped_of_done hk) (stamped_of_done hl)
  case ahead =>
    intro k c' hk
    have hk := stamped_of_done hk
    have hahead := h.ahead k c' hk
    have hlater := h.later k c' i c hk hi
    rw [hplaced]
    simp only [List.mem_append, List.mem_singleton, or_and_right, exists_or, exists_eq_left,
      ahead_concat, Mark.placed.injEq, hahead, hlater]

end Dated

/-! ### One step -/

/-- The records are in the order of time exactly when no caller has been overtaken. -/
structure Ordered (D : Nat) (y : Timed) (ms : List Mark) : Prop where
  linked : Linked D y
  dated : Dated y ms
  exact : y.Chronological ↔ ∀ i j, ¬Overtakes ms j i

theorem ordered_initial {D : Nat} (hD : RingSize D) (clock : UInt64) (cap packetCap : Nat) :
    Ordered D (Timed.initial (RingState.fresh D) clock cap packetCap) [] := by
  have hlinked := linked_initial hD clock cap packetCap
  refine ⟨hlinked, dated_initial .., iff_of_true ((chronological_iff hlinked).mpr .nil) ?_⟩
  intro i j h
  cases h

/-- Only a record that gets its place behind a later one puts the ring out of order. -/
theorem Ordered.same {D : Nat} {y z : Timed} {ms : List Mark} (h : Ordered D y ms)
    (hz : Linked D z) (hplaced : z.placed = y.placed) {ms' : List Mark} (hdated : Dated z ms')
    (hms : ∀ i j, Overtakes ms' j i ↔ Overtakes ms j i) : Ordered D z ms' := by
  refine ⟨hz, hdated, ?_⟩
  simp only [hms]
  rw [← h.exact, chronological_iff hz, chronological_iff h.linked, hplaced]

theorem step_ordered {D : Nat} {y z : Timed} {e : Tick} {ms : List Mark} (hD : RingSize D)
    (hlegal : e.Legal) (h : Ordered D y ms) (hstep : y.step utf16ToUtf8 e = some z) :
    Ordered D z (y.mark ms e) := by
  have hsize : RingSize y.system.ring.dataSize := by
    obtain ⟨cur, hinv⟩ := h.linked.ring
    exact hinv.size.symm ▸ hD
  have hz := step_linked hD hlegal h.linked hstep
  cases Timed.step_cases hstep with
  | tick now hnow =>
    by_cases hmoved : y.clock < now
    · rw [show y.mark ms (.tick now) = ms ++ [.moved] from if_pos hmoved]
      exact h.same hz rfl (h.dated.tick hmoved) fun i j => by simp [overtakes_concat]
    · rw [show y.mark ms (.tick now) = ms from if_neg hmoved]
      have hsame : now = y.clock := UInt64.le_antisymm (UInt64.not_lt.mp hmoved) hnow
      exact h.same hz rfl (h.dated.frame rfl hsame rfl) fun _ _ => Iff.rfl
  | arrive c => exact h.same hz rfl (h.dated.arrive c) fun _ _ => Iff.rfl
  | stamp i c hi =>
    exact h.same hz rfl (h.dated.stamp hi) fun i j => by simp [Timed.mark, overtakes_concat]
  | access e s hcall hdeliver hs =>
    have hplaced := (access_system hcall hdeliver hs).1
    exact h.same hz hplaced (h.dated.frame rfl rfl hplaced) fun _ _ => Iff.rfl
  | deliver now wp rp len got s hc hs =>
    obtain ⟨-, rfl⟩ := System.step_deliver hc hs
    exact h.same hz rfl (h.dated.frame rfl rfl rfl) fun _ _ => Iff.rfl
  | oversize i c s hi hlong hs =>
    obtain ⟨hlt, -⟩ := List.getElem?_eq_some_iff.mp hi
    obtain ⟨hidle, haccepted, ⟨haccepts, -⟩ | ⟨-, hempty⟩⟩ := call_placed hsize hs
    · exact absurd haccepts.size (Nat.not_le.mpr hlong)
    · have hplaced : ({ y with system := s, callers := y.callers.set i .done } : Timed).placed =
          y.placed := by simp only [Timed.placed, haccepted, hempty, hidle]
      rw [show y.mark ms (.lock i) = ms by simp only [Timed.mark, hi]]
      exact h.same hz hplaced (h.dated.dropped hlt hplaced) fun _ _ => Iff.rfl
  | lock i c s hi hs =>
    obtain ⟨hlt, -⟩ := List.getElem?_eq_some_iff.mp hi
    obtain ⟨hidle, haccepted, ⟨haccepts, hflight⟩ | ⟨hnot, hempty⟩⟩ := call_placed hsize hs
    · have hplaced : ({ y with system := s, callers := y.callers.set i .done } : Timed).placed =
          y.placed ++ [c] := by
        simp only [Timed.placed, haccepted, hflight, hidle, List.append_nil]
      rw [show y.mark ms (.lock i) = ms ++ [.placed i] by simp only [Timed.mark, hi, if_pos haccepts]]
      refine ⟨hz, h.dated.placed_concat hi hplaced, ?_⟩
      -- in order with the others, and not behind a later one
      have hbehind : (∀ a ∈ y.placed, a.timestamp ≤ c.timestamp) ↔
          ∀ j, ¬[.read i, .moved, .read j, .placed j].Sublist ms := by
        rw [← not_exists, ← h.dated.ahead i c hi]
        simp only [not_exists, not_and, UInt64.not_lt]
      rw [chronological_iff hz, hplaced, List.pairwise_append, ← chronological_iff h.linked, h.exact]
      simp only [List.pairwise_singleton, List.mem_singleton, forall_eq, true_and, hbehind,
        overtakes_concat, not_or, not_and, Mark.placed.injEq]
      constructor
      · rintro ⟨hold, hnew⟩ k j
        exact ⟨hold k j, fun hk => hk ▸ hnew j⟩
      · exact fun hall => ⟨fun k j => (hall k j).1, fun j => (hall i j).2 rfl⟩
    · have hplaced : ({ y with system := s, callers := y.callers.set i .done } : Timed).placed =
          y.placed := by simp only [Timed.placed, haccepted, hempty, hidle]
      rw [show y.mark ms (.lock i) = ms by simp only [Timed.mark, hi, if_neg hnot]]
      exact h.same hz hplaced (h.dated.dropped hlt hplaced) fun _ _ => Iff.rfl

/-! ### Exactly -/

theorem mark_prefix (ms : List Mark) (y : Timed) (e : Tick) : ms <+: y.mark ms e := by
  unfold Timed.mark
  split
  · split
    · exact List.prefix_append ..
    · exact List.prefix_refl _
  · exact List.prefix_append ..
  · split
    · split
      · exact List.prefix_append ..
      · exact List.prefix_refl _
    · exact List.prefix_refl _
  · exact List.prefix_refl _

/-- In every run of any callers the order of the ring is the order of time, and the model follows it,
exactly when no caller whose record finds room is overtaken between the clock and the lock by one that
has read a later time. -/
theorem ring_chronological_iff {alloc : Allocation} {size : UInt32} {s₀ : RingState}
    (hcreate : kndRingCreate alloc size = .ok s₀) {clock : UInt64} {cap packetCap : Nat}
    {es : List Tick} {y : Timed} {ms : List Mark} (hlegal : ∀ e ∈ es, e.Legal)
    (hrun : runEvents (withHistory (Timed.step utf16ToUtf8) Timed.mark)
      (Timed.initial s₀ clock cap packetCap, []) es = some (y, ms)) :
    (∀ pre z, pre <+: es →
      runEvents (Timed.step utf16ToUtf8) (Timed.initial s₀ clock cap packetCap) pre = some z →
      z.Chronological) ↔
    ∀ i j, ¬Overtakes ms j i := by
  obtain ⟨hD, rfl⟩ := kndRingCreate_ok hcreate
  have hstart := ordered_initial hD clock cap packetCap
  have hkeep : ∀ s e t, Tick.Legal e → Ordered size.toNat s.1 s.2 →
      withHistory (Timed.step utf16ToUtf8) Timed.mark s e = some t →
      Ordered size.toNat t.1 t.2 := by
    rintro s e t he hs ht
    obtain ⟨u, hu, rfl⟩ := Option.map_eq_some_iff.mp ht
    exact step_ordered hD he hs hu
  have hgrow : ∀ s e t, withHistory (Timed.step utf16ToUtf8) Timed.mark s e = some t →
      s.2 <+: t.2 := by
    rintro s e t ht
    obtain ⟨u, -, rfl⟩ := Option.map_eq_some_iff.mp ht
    exact mark_prefix ..
  constructor
  · intro h
    have hordered := runEvents_invariant Tick.Legal hkeep hstart hlegal hrun
    exact hordered.exact.mp (h es y (List.prefix_refl es) (runEvents_of_withHistory hrun))
  · rintro h pre z ⟨post, rfl⟩ hz
    obtain ⟨⟨z', ms'⟩, hpre, hpost⟩ := runEvents_append.mp hrun
    obtain rfl := Option.some.inj (hz.symm.trans (runEvents_of_withHistory hpre))
    have hordered := runEvents_invariant Tick.Legal hkeep hstart
      (fun e he => hlegal e (List.mem_append_left _ he)) hpre
    have htrans : ∀ s t u : Timed × List Mark, s.2 <+: t.2 → t.2 <+: u.2 → s.2 <+: u.2 :=
      fun _ _ _ hs ht => hs.trans ht
    have hms : ms' <+: ms :=
      runEvents_climbs (fun s => List.prefix_refl s.2) htrans hgrow hpost
    exact hordered.exact.mpr fun i j hover => h i j (hover.trans hms.sublist)

def oneByteCall : WriteCall := ⟨kndRecData, 0, .bytes [1], .bytes [], 0⟩

theorem oneByteCall_legal : oneByteCall.Legal :=
  ⟨⟨Buffer.present_bytes _, Buffer.present_bytes _, by decide⟩, .inr (.inr rfl)⟩

/-- Two callers read the clock, and take the lock in this order. -/
def twoCallers (first second : Nat) : List Tick :=
  [.arrive oneByteCall, .arrive oneByteCall, .stamp 0, .tick 7, .stamp 1, .lock first] ++
    List.replicate 32 (.access .store) ++ [.access .publish, .lock second] ++
    List.replicate 32 (.access .store) ++ [.access .publish]

theorem twoCallers_legal (first second : Nat) : ∀ e ∈ twoCallers first second, e.Legal := by
  have hstores : ∀ e ∈ List.replicate 32 (Tick.access .store), e.Legal := by
    intro e he
    rw [List.eq_of_mem_replicate he]
    trivial
  have hfront : ∀ e ∈ [.arrive oneByteCall, .arrive oneByteCall, .stamp 0, .tick 7, .stamp 1,
      .lock first], Tick.Legal e := by
    simp only [List.forall_mem_cons]
    exact ⟨oneByteCall_legal, oneByteCall_legal, trivial, trivial, trivial, trivial, nofun⟩
  have hturn : ∀ e ∈ [.access .publish, .lock second], Tick.Legal e := by
    simp only [List.forall_mem_cons]
    exact ⟨trivial, trivial, nofun⟩
  have hlast : ∀ e ∈ [Tick.access .publish], e.Legal := List.forall_mem_singleton.mpr trivial
  rw [twoCallers]
  simp only [List.forall_mem_append]
  exact ⟨⟨⟨⟨hfront, hstores⟩, hturn⟩, hstores⟩, hlast⟩

/-- In the order of the clock. -/
theorem ring_chronological_iff_two :
    ∃ y ms, runEvents (withHistory (Timed.step fun _ => []) Timed.mark)
        (Timed.initial (RingState.fresh 0x10000) 5 0 0, []) (twoCallers 0 1) = some (y, ms) ∧
      ∀ pre z, pre <+: twoCallers 0 1 →
        runEvents (Timed.step fun _ => []) (Timed.initial (RingState.fresh 0x10000) 5 0 0) pre =
          some z → z.Chronological := by
  have hcreate : kndRingCreate ⟨true, true⟩ 0x10000 = .ok (RingState.fresh 0x10000) := rfl
  have hmarks : (runEvents (withHistory (Timed.step fun _ => []) Timed.mark)
      (Timed.initial (RingState.fresh 0x10000) 5 0 0, []) (twoCallers 0 1)).map Prod.snd =
      some [.read 0, .moved, .read 1, .placed 0, .placed 1] := by
    decide +kernel
  obtain ⟨⟨y, ms⟩, hrun, hms⟩ := Option.map_eq_some_iff.mp hmarks
  refine ⟨y, ms, hrun, (ring_chronological_iff hcreate (twoCallers_legal 0 1) hrun).mpr ?_⟩
  obtain rfl := hms
  intro i j hover
  -- the marks are as many as those of an overtaking, so they would have to be the same
  have hsame := hover.eq_of_length rfl
  simp only [List.cons.injEq, Mark.read.injEq, Mark.placed.injEq] at hsame
  omega

/-- The caller with the later time takes the lock first. -/
theorem ring_goes_back :
    (∀ e ∈ twoCallers 1 0, e.Legal) ∧
    ∃ y, runEvents (Timed.step fun _ => []) (Timed.initial (RingState.fresh 0x10000) 5 0 0)
        (twoCallers 1 0) = some y ∧ ¬y.Chronological := by
  refine ⟨twoCallers_legal 1 0, ?_⟩
  have htimes : (runEvents (Timed.step fun _ => []) (Timed.initial (RingState.fresh 0x10000) 5 0 0)
      (twoCallers 1 0)).map
      (fun y => y.placed.map WriteCall.timestamp) = some [7, 5] := by
    decide +kernel
  obtain ⟨y, hrun, hy⟩ := Option.map_eq_some_iff.mp htimes
  refine ⟨y, hrun, fun hchron => ?_⟩
  have hpairs := List.pairwise_map.mpr hchron.ring
  rw [hy] at hpairs
  exact absurd hpairs (by decide)

end NetDebugger.Pipeline
