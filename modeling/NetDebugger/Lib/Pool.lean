import Mathlib.Data.List.Basic

/-! A pool of members that write to one log.  Members enter at any time and take their steps in any
order.  Where every entry tells its writer, the entries of a member are what it has written, in its
own order. -/

namespace NetDebugger.Lib

/-- A member: its state, and what it has written so far. -/
structure Member (σ α : Type*) where
  state : σ
  written : List α

structure Pool (σ α : Type*) where
  members : List (Member σ α)
  log : List α

namespace Pool

variable {σ ε α κ : Type*}

def empty : Pool σ α := ⟨[], []⟩

def enter (p : Pool σ α) (s : σ) : Pool σ α := { p with members := p.members ++ [⟨s, []⟩] }

/-- A step of the member `i`, which writes `out` at the end of the log. -/
def act (p : Pool σ α) (i : Nat) (s : σ) (out : List α) : Pool σ α where
  members := p.members.modify i fun m => ⟨s, m.written ++ out⟩
  log := p.log ++ out

/-- Something that holds of each member, by its number. -/
def Each (p : Pool σ α) (P : Nat → Member σ α → Prop) : Prop :=
  ∀ i m, p.members[i]? = some m → P i m

theorem each_empty (P : Nat → Member σ α → Prop) : (empty : Pool σ α).Each P := by
  intro i m h
  cases h

theorem Each.enter {p : Pool σ α} {P : Nat → Member σ α → Prop} (h : p.Each P) {s : σ}
    (hnew : P p.members.length ⟨s, []⟩) : (p.enter s).Each P := by
  intro i m hm
  rw [Pool.enter, List.getElem?_append] at hm
  split at hm
  · exact h i m hm
  · obtain ⟨hlt, heq⟩ := List.getElem?_eq_some_iff.mp hm
    have hi : i - p.members.length = 0 := by
      simp only [List.length_singleton] at hlt
      omega
    simp only [hi, List.getElem_cons_zero] at heq
    obtain rfl : i = p.members.length := by omega
    rwa [← heq]

/-- A step changes its own member only. -/
theorem members_act {p : Pool σ α} {i j : Nat} {m m' : Member σ α} {s : σ} {out : List α}
    (hm : p.members[i]? = some m) (hm' : (p.act i s out).members[j]? = some m') :
    (i = j ∧ m' = ⟨s, m.written ++ out⟩) ∨ (i ≠ j ∧ p.members[j]? = some m') := by
  rw [Pool.act, List.getElem?_modify] at hm'
  by_cases hij : i = j
  · subst hij
    rw [hm] at hm'
    simp only [if_true, Option.map_eq_map, Option.map_some, Option.some.injEq] at hm'
    exact .inl ⟨rfl, hm'.symm⟩
  · simp only [if_neg hij, Option.map_eq_map, Option.map_id'] at hm'
    exact .inr ⟨hij, hm'⟩

theorem Each.act {p : Pool σ α} {P : Nat → Member σ α → Prop} (h : p.Each P) {i : Nat}
    {m : Member σ α} {s : σ} {out : List α} (hm : p.members[i]? = some m)
    (hnew : P i ⟨s, m.written ++ out⟩) : (p.act i s out).Each P := by
  intro j m' hm'
  rcases members_act hm hm' with ⟨rfl, rfl⟩ | ⟨-, hold⟩
  · exact hnew
  · exact h j m' hold

/-! ### Entries that tell their writer -/

/-- The entries of each member are what it has written, and there are no others. -/
structure Separated (p : Pool σ α) (owner : α → κ) (key : Nat → κ) [DecidableEq κ] : Prop where
  own : p.Each fun i m => p.log.filter (owner · = key i) = m.written
  others : ∀ k, (∀ i < p.members.length, key i ≠ k) → p.log.filter (owner · = k) = []

variable [DecidableEq κ] {owner : α → κ} {key : Nat → κ}

theorem separated_empty (owner : α → κ) (key : Nat → κ) :
    (empty : Pool σ α).Separated owner key :=
  ⟨each_empty _, fun _ _ => rfl⟩

theorem Separated.enter {p : Pool σ α} (h : p.Separated owner key) (s : σ)
    (hfresh : ∀ i < p.members.length, key i ≠ key p.members.length) :
    (p.enter s).Separated owner key where
  own := h.own.enter (h.others _ hfresh)
  others k hk := by
    refine h.others k fun i hi => hk i ?_
    rw [Pool.enter, List.length_append]
    omega

theorem filter_owner_same {out : List α} {k : κ} (hout : ∀ a ∈ out, owner a = k) :
    out.filter (owner · = k) = out :=
  List.filter_eq_self.mpr fun a ha => decide_eq_true (hout a ha)

theorem filter_owner_other {out : List α} {k k' : κ} (hout : ∀ a ∈ out, owner a = k)
    (hne : k ≠ k') : out.filter (owner · = k') = [] :=
  List.filter_eq_nil_iff.mpr fun a ha => by rw [hout a ha]; simpa using hne

theorem Separated.act {p : Pool σ α} (h : p.Separated owner key) {i : Nat} {m : Member σ α}
    (hm : p.members[i]? = some m) (s : σ) {out : List α} (hout : ∀ a ∈ out, owner a = key i)
    (hapart : ∀ j < p.members.length, j ≠ i → key j ≠ key i) :
    (p.act i s out).Separated owner key := by
  have hi : i < p.members.length := (List.getElem?_eq_some_iff.mp hm).1
  constructor
  · intro j m' hm'
    show (p.log ++ out).filter (owner · = key j) = m'.written
    rw [List.filter_append]
    rcases members_act hm hm' with ⟨rfl, rfl⟩ | ⟨hij, hold⟩
    · rw [h.own i m hm, filter_owner_same hout]
    · have hj : j < p.members.length := (List.getElem?_eq_some_iff.mp hold).1
      rw [h.own j m' hold, filter_owner_other hout (hapart j hj (Ne.symm hij)).symm, List.append_nil]
  · intro k hk
    show (p.log ++ out).filter (owner · = k) = []
    rw [Pool.act, List.length_modify] at hk
    rw [List.filter_append, h.others k hk, filter_owner_other hout (hk i hi), List.append_nil]

end Pool

end NetDebugger.Lib
