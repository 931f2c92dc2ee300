import Mathlib.Data.List.Basic

/-! Buttons of an immediate-mode interface.  They are drawn anew in every frame and told apart by
their ids alone.  A click goes down on a button in one frame and up in a later one, and the first
button drawn with the id takes it: that button is pressed if the pointer is over it. -/

namespace NetDebugger.Lib

/-- The left mouse button in one frame, and which of the drawn buttons the pointer is over. -/
structure Pointer where
  place : Option Nat
  clicked : Bool
  down : Bool

section

variable {α ι σ : Type*} [DecidableEq ι]

/-- The button at place `k`: the id that is active behind it, and whether it is pressed. -/
def button (m : Pointer) (k : Nat) (id : ι) (active : Option ι) : Option ι × Bool :=
  let hovered : Bool := m.place = some k ∧ (active = none ∨ active = some id)
  let active := if hovered && m.clicked then some id else active
  if active = some id then
    if m.down then (active, false) else (none, hovered)
  else (active, false)

/-- The buttons from place `k` on. `act` is what the program does where one is pressed. -/
def buttons (m : Pointer) (idOf : α → ι) (act : σ → α → σ) :
    Nat → σ → Option ι → List α → σ × Option ι
  | _, s, active, [] => (s, active)
  | k, s, active, a :: as =>
    let (active, pressed) := button m k (idOf a) active
    buttons m idOf act (k + 1) (if pressed then act s a else s) active as

/-- A whole frame: an id that was not drawn in it is not active any more. -/
def buttonFrame (m : Pointer) (idOf : α → ι) (act : σ → α → σ) (s : σ) (active : Option ι)
    (as : List α) : σ × Option ι :=
  let r := buttons m idOf act 0 s active as
  (r.1, r.2.filter fun id => id ∈ as.map idOf)

variable {m : Pointer} (idOf : α → ι) (act : σ → α → σ)

/-- Without a click nothing becomes active. -/
theorem buttons_quiet (hclicked : m.clicked = false) (k : Nat) (s : σ) (as : List α) :
    buttons m idOf act k s none as = (s, none) := by
  induction as generalizing k with
  | nil => rfl
  | cons a as ih =>
    have hbutton : button m k (idOf a) none = (none, false) := by
      simp [button, hclicked]
    rw [buttons, hbutton]
    exact ih (k + 1)

/-- While the mouse button is held the active id stays, and nothing is pressed. -/
theorem buttons_held (hdown : m.down = true) (k : Nat) (s : σ) (x : ι) (as : List α) :
    buttons m idOf act k s (some x) as = (s, some x) := by
  induction as generalizing k with
  | nil => rfl
  | cons a as ih =>
    have hbutton : button m k (idOf a) (some x) = (some x, false) := by
      by_cases hid : x = idOf a
      · simp [button, hid, hdown]
      · simp [button, hid]
    rw [buttons, hbutton]
    exact ih (k + 1)

/-- The mouse button goes down over the button at place `k + i`. -/
theorem buttons_down (hclicked : m.clicked = true) (hdown : m.down = true) {k i : Nat}
    (hover : m.place = some (k + i)) (s : σ) {as : List α} {a : α} (ha : as[i]? = some a) :
    buttons m idOf act k s none as = (s, some (idOf a)) := by
  induction as generalizing k i with
  | nil => cases ha
  | cons b as ih =>
    cases i with
    | zero =>
      obtain rfl := Option.some.inj ha
      have hbutton : button m k (idOf b) none = (some (idOf b), false) := by
        simp [button, hover, hclicked, hdown]
      rw [buttons, hbutton]
      exact buttons_held idOf act hdown (k + 1) s (idOf b) as
    | succ i =>
      have hbutton : button m k (idOf b) none = (none, false) := by
        simp [button, hover]
      rw [buttons, hbutton]
      refine ih (k := k + 1) (i := i) ?_ ha
      rw [hover, Nat.add_right_comm, Nat.add_assoc]

/-- The mouse button goes up over the button `a`, whose id is active: `a` is pressed unless a button
with its id is drawn before it. -/
theorem buttons_up (hclicked : m.clicked = false) (hdown : m.down = false) {k : Nat}
    {pre : List α} (hover : m.place = some (k + pre.length)) (s : σ) (a : α) (post : List α) :
    buttons m idOf act k s (some (idOf a)) (pre ++ a :: post) =
      (if idOf a ∈ pre.map idOf then s else act s a, none) := by
  induction pre generalizing k with
  | nil =>
    have hbutton : button m k (idOf a) (some (idOf a)) = (none, true) := by
      simp [button, hover, hclicked, hdown]
    rw [List.nil_append, buttons, hbutton]
    exact buttons_quiet idOf act hclicked (k + 1) (act s a) post
  | cons b pre ih =>
    by_cases hid : idOf a = idOf b
    · have hbutton : button m k (idOf b) (some (idOf a)) = (none, false) := by
        simp [button, hover, hid, hdown]
      rw [List.cons_append, buttons, hbutton, List.map_cons,
        if_pos (List.mem_cons.mpr (Or.inl hid))]
      exact buttons_quiet idOf act hclicked (k + 1) s (pre ++ a :: post)
    · have hbutton : button m k (idOf b) (some (idOf a)) = (some (idOf a), false) := by
        simp [button, hover, hid]
      have hmem : idOf a ∈ (b :: pre).map idOf ↔ idOf a ∈ pre.map idOf := by
        rw [List.map_cons, List.mem_cons, or_iff_right hid]
      have hplace : m.place = some (k + 1 + pre.length) := by
        rw [hover, List.length_cons, Nat.add_right_comm, Nat.add_assoc]
      rw [List.cons_append, buttons, hbutton]
      simp only [hmem]
      exact ih hplace

/-! ### A click over several frames -/

theorem buttonFrame_quiet (hclicked : m.clicked = false) (s : σ) (as : List α) :
    buttonFrame m idOf act s none as = (s, none) := by
  rw [buttonFrame, buttons_quiet idOf act hclicked]
  rfl

theorem buttonFrame_held (hdown : m.down = true) (s : σ) {x : ι} {as : List α}
    (hx : x ∈ as.map idOf) : buttonFrame m idOf act s (some x) as = (s, some x) := by
  rw [buttonFrame, buttons_held idOf act hdown]
  exact congrArg (Prod.mk s) (if_pos (decide_eq_true hx))

theorem buttonFrame_down (hclicked : m.clicked = true) (hdown : m.down = true) {i : Nat}
    (hover : m.place = some i) (s : σ) {as : List α} {a : α} (ha : as[i]? = some a) :
    buttonFrame m idOf act s none as = (s, some (idOf a)) := by
  have hdrawn : idOf a ∈ as.map idOf := List.mem_map_of_mem (List.mem_of_getElem? ha)
  have hplace : m.place = some (0 + i) := by rw [hover, Nat.zero_add]
  rw [buttonFrame, buttons_down idOf act hclicked hdown hplace s ha]
  exact congrArg (Prod.mk s) (if_pos (decide_eq_true hdrawn))

theorem buttonFrame_up (hclicked : m.clicked = false) (hdown : m.down = false) {i : Nat}
    (hover : m.place = some i) (s : σ) {as : List α} {a : α} (ha : as[i]? = some a) :
    buttonFrame m idOf act s (some (idOf a)) as =
      (if idOf a ∈ (as.take i).map idOf then s else act s a, none) := by
  obtain ⟨hlt, rfl⟩ := List.getElem?_eq_some_iff.mp ha
  have hsplit : as = as.take i ++ as[i] :: as.drop (i + 1) := by
    rw [← List.drop_eq_getElem_cons hlt, List.take_append_drop]
  have hplace : m.place = some (0 + (as.take i).length) := by
    rw [hover, Nat.zero_add, List.length_take, Nat.min_eq_left (Nat.le_of_lt hlt)]
  have hup := buttons_up idOf act hclicked hdown hplace s as[i] (as.drop (i + 1))
  rw [← hsplit] at hup
  rw [buttonFrame, hup]
  rfl

end

end NetDebugger.Lib
