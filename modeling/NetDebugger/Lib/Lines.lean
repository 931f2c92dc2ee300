import Mathlib.Data.List.TakeWhile

/-! A stream that is read line by line into a buffer of limited length.  A line ends with a separator,
or where the buffer is full.  What was written in lines that fit the buffer is read in these lines. -/

namespace NetDebugger.Lib

variable {α : Type*} [DecidableEq α]

/-- The length of the next line, its separator included. -/
def nextLine (limit : Nat) (sep : α) (s : List α) : Nat :=
  let head := (s.take limit).takeWhile (· ≠ sep)
  if head.length < (s.take limit).length then head.length + 1 else head.length

def readLines (limit : Nat) (sep : α) : Nat → List α → List (List α)
  | 0, _ => []
  | _, [] => []
  | fuel + 1, s =>
    let n := nextLine limit sep s
    s.take n :: readLines limit sep fuel (s.drop n)

/-- A line that fits the buffer with its separator. -/
structure FitsLine (limit : Nat) (sep : α) (body : List α) : Prop where
  clean : ∀ c ∈ body, c ≠ sep
  length : body.length < limit

/-- Lines, each with its separator. -/
def writeLines (sep : α) (bodies : List (List α)) : List α := bodies.flatMap (· ++ [sep])

variable {limit : Nat} {sep : α}

theorem nextLine_fits {body : List α} (h : FitsLine limit sep body) (rest : List α) :
    nextLine limit sep (body ++ sep :: rest) = body.length + 1 := by
  have hlimit := h.length
  obtain ⟨k, rfl⟩ : ∃ k, limit = body.length + (k + 1) := ⟨limit - body.length - 1, by omega⟩
  have hfront : (body ++ sep :: rest).take (body.length + (k + 1)) = body ++ sep :: rest.take k := by
    rw [List.take_length_add_append, List.take_succ_cons]
  have hhead : (body ++ sep :: rest.take k).takeWhile (· ≠ sep) = body := by
    rw [List.takeWhile_append_of_pos fun c hc => decide_eq_true (h.clean c hc),
      List.takeWhile_cons_of_neg (by simp), List.append_nil]
  unfold nextLine
  rw [hfront, hhead]
  apply if_pos
  rw [List.length_append, List.length_cons]
  omega

theorem readLines_succ {s : List α} (fuel : Nat) (hs : s ≠ []) :
    readLines limit sep (fuel + 1) s =
      s.take (nextLine limit sep s) :: readLines limit sep fuel (s.drop (nextLine limit sep s)) := by
  cases s with
  | nil => contradiction
  | cons c s => rfl

/-- Lines are read as they were written. -/
theorem readLines_writeLines {bodies : List (List α)}
    (h : ∀ body ∈ bodies, FitsLine limit sep body) {fuel : Nat}
    (hfuel : (writeLines sep bodies).length ≤ fuel) :
    readLines limit sep fuel (writeLines sep bodies) = bodies.map (· ++ [sep]) := by
  induction bodies generalizing fuel with
  | nil => cases fuel <;> rfl
  | cons body bodies ih =>
    have hsplit : writeLines sep (body :: bodies) = body ++ sep :: writeLines sep bodies := by
      simp [writeLines]
    rw [hsplit, List.length_append, List.length_cons] at hfuel
    obtain ⟨fuel, rfl⟩ := Nat.exists_eq_succ_of_ne_zero (by omega : fuel ≠ 0)
    have hnext := nextLine_fits (h body (List.mem_cons_self ..)) (writeLines sep bodies)
    have hne : body ++ sep :: writeLines sep bodies ≠ [] := by simp
    have htake : (body ++ sep :: writeLines sep bodies).take (body.length + 1) = body ++ [sep] := by
      rw [List.take_length_add_append, List.take_succ_cons, List.take_zero]
    have hdrop : (body ++ sep :: writeLines sep bodies).drop (body.length + 1) =
        writeLines sep bodies := by
      rw [List.drop_length_add_append]
      rfl
    rw [hsplit, readLines_succ fuel hne, hnext, htake, hdrop, List.map_cons,
      ih (fun b hb => h b (List.mem_cons_of_mem _ hb)) (by omega)]

/-! ### Lines in front of others -/

/-- Nothing, or lines up to their separator. -/
def WholeLines (sep : α) (s : List α) : Prop := s = [] ∨ s.getLast? = some sep

theorem nextLine_pos (hlimit : 0 < limit) {s : List α} (hs : s ≠ []) : 0 < nextLine limit sep s := by
  have hlen : 0 < s.length := List.length_pos_iff.mpr hs
  unfold nextLine
  dsimp only
  split
  · omega
  · next hlt =>
    rw [List.length_take] at hlt
    omega

theorem nextLine_append {s : List α} (hs : s.getLast? = some sep) (t : List α) :
    nextLine limit sep (s ++ t) = nextLine limit sep s := by
  rcases Nat.lt_or_ge s.length limit with hlt | hle
  · obtain ⟨k, rfl⟩ : ∃ k, limit = s.length + k := ⟨limit - s.length, by omega⟩
    have hsep : ¬ ∀ c ∈ s, decide (c ≠ sep) = true := fun hall =>
      absurd rfl (of_decide_eq_true (hall sep (List.mem_of_getLast? hs)))
    have hhead : (s.takeWhile fun c => decide (c ≠ sep)).length < s.length := by
      refine Nat.lt_of_le_of_ne (List.takeWhile_sublist _).length_le fun hlen => hsep ?_
      exact List.takeWhile_eq_self_iff.mp ((List.takeWhile_prefix _).eq_of_length hlen)
    have hfront : ((s ++ t.take k).takeWhile fun c => decide (c ≠ sep)) =
        s.takeWhile fun c => decide (c ≠ sep) := by
      rw [List.takeWhile_append, if_neg (Nat.ne_of_lt hhead)]
    unfold nextLine
    rw [List.take_length_add_append, List.take_of_length_le (Nat.le_add_right s.length k)]
    dsimp only
    rw [hfront, if_pos hhead, if_pos]
    rw [List.length_append]
    omega
  · unfold nextLine
    rw [List.take_append_of_le_length hle]

theorem readLines_fuel (hlimit : 0 < limit) {fuel : Nat} {s : List α} (hfuel : s.length ≤ fuel) :
    readLines limit sep fuel s = readLines limit sep s.length s := by
  induction hn : s.length using Nat.strongRecOn generalizing s fuel with
  | ind n ih =>
    subst hn
    by_cases hs : s = []
    · subst hs
      cases fuel <;> rfl
    · have hlen := List.length_pos_iff.mpr hs
      have hpos := @nextLine_pos _ _ _ sep hlimit _ hs
      obtain ⟨fuel, rfl⟩ := Nat.exists_eq_succ_of_ne_zero (by omega : fuel ≠ 0)
      obtain ⟨k, hk⟩ := Nat.exists_eq_succ_of_ne_zero (by omega : s.length ≠ 0)
      have hdrop : (s.drop (nextLine limit sep s)).length < s.length := by
        rw [List.length_drop]
        omega
      have hrest := ih _ hdrop (Nat.le_of_lt_succ (Nat.lt_of_lt_of_le hdrop hfuel)) rfl
      have hrest' := @ih _ hdrop k _ (by omega) rfl
      rw [hk, readLines_succ fuel hs, readLines_succ k hs, hrest, hrest']

/-- The lines of a file do not change when others are appended. -/
theorem readLines_append (hlimit : 0 < limit) {s : List α} (hs : WholeLines sep s) (t : List α) :
    readLines limit sep (s ++ t).length (s ++ t) =
      readLines limit sep s.length s ++ readLines limit sep t.length t := by
  induction hn : s.length using Nat.strongRecOn generalizing s with
  | ind n ih =>
    subst hn
    rcases hs with rfl | hs
    · rfl
    · have hne : s ≠ [] := by
        rintro rfl
        contradiction
      have hlen := List.length_pos_iff.mpr hne
      have hpos := @nextLine_pos _ _ _ sep hlimit _ hne
      have hle : nextLine limit sep s ≤ s.length := by
        unfold nextLine
        dsimp only
        split
        · next h => exact Nat.le_trans h (List.length_take_le' ..)
        · exact Nat.le_trans (List.takeWhile_sublist _).length_le (List.length_take_le' ..)
      obtain ⟨k, hk⟩ := Nat.exists_eq_succ_of_ne_zero (by omega : s.length ≠ 0)
      have hdrop : (s.drop (nextLine limit sep s)).length < s.length := by
        rw [List.length_drop]
        omega
      have hwhole : WholeLines sep (s.drop (nextLine limit sep s)) := by
        by_cases hend : s.length ≤ nextLine limit sep s
        · exact .inl (List.drop_eq_nil_of_le hend)
        · refine .inr ?_
          rw [List.getLast?_drop, if_neg hend, hs]
      have hrest := ih _ hdrop hwhole rfl
      have hlong : (s ++ t).length = k + t.length + 1 := by
        rw [List.length_append]
        omega
      have hfuel : (s.drop (nextLine limit sep s) ++ t).length ≤ k + t.length := by
        rw [List.length_append]
        omega
      have hfuel' : (s.drop (nextLine limit sep s)).length ≤ k := by omega
      rw [hlong, readLines_succ _ (by simp [hne]), nextLine_append hs,
        List.take_append_of_le_length hle, List.drop_append_of_le_length hle,
        readLines_fuel hlimit hfuel, hrest, hk, readLines_succ k hne, readLines_fuel hlimit hfuel']
      rfl

end NetDebugger.Lib
