import Mathlib.Data.List.Basic
import NetDebugger.Lib.Frames

/-! The first occurrence of a pattern: in a list, and in a buffer that is read at indices. -/

namespace NetDebugger.Lib

variable {α : Type} [DecidableEq α]

/-- The index of the first occurrence of the pattern. -/
def indexOf (pat : List α) : List α → Option Nat
  | [] => if pat = [] then some 0 else none
  | a :: s => if pat <+: a :: s then some 0 else (indexOf pat s).map (· + 1)

theorem indexOf_append_self (pat s : List α) : indexOf pat (pat ++ s) = some 0 := by
  cases pat with
  | nil =>
    cases s with
    | nil => rfl
    | cons a s => exact if_pos List.nil_prefix
  | cons c pat => exact if_pos (List.prefix_append (c :: pat) s)

/-- A place where the pattern does not begin is passed over. -/
theorem indexOf_cons {pat : List α} {a : α} {s : List α} (h : ¬pat <+: a :: s) :
    indexOf pat (a :: s) = (indexOf pat s).map (· + 1) := if_neg h

omit [DecidableEq α] in
theorem not_isPrefix_of_head {c : α} {pat : List α} {a : α} {s : List α} (h : a ≠ c) :
    ¬c :: pat <+: a :: s := by
  intro hpre
  exact h (List.cons_prefix_cons.mp hpre).1.symm

omit [DecidableEq α] in
/-- A pattern in front of a letter that it does not have. -/
theorem prefix_of_not_mem {pat s t : List α} {c : α} (h : pat <+: s ++ c :: t) (hc : c ∉ pat) :
    pat <+: s := by
  rcases Nat.le_total pat.length s.length with hle | hle
  · exact List.prefix_of_prefix_length_le h (List.prefix_append ..) hle
  · obtain ⟨r, rfl⟩ := List.prefix_of_prefix_length_le (List.prefix_append s (c :: t)) h hle
    rw [List.prefix_append_right_inj] at h
    cases r with
    | nil => rw [List.append_nil]
    | cons a r =>
      obtain ⟨rfl, -⟩ := List.cons_prefix_cons.mp h
      exact absurd (List.mem_append_right s (List.mem_cons_self ..)) hc

/-- A text without the first letter of the pattern is passed over. -/
theorem indexOf_append {c : α} (pat : List α) {line : List α} (h : c ∉ line) (s : List α) :
    indexOf (c :: pat) (line ++ s) = (indexOf (c :: pat) s).map (· + line.length) := by
  induction line with
  | nil => simp
  | cons a line ih =>
    have ha : a ≠ c := fun heq => h (heq ▸ List.mem_cons_self ..)
    rw [List.cons_append, indexOf_cons (not_isPrefix_of_head ha),
      ih fun hc => h (List.mem_cons_of_mem _ hc), Option.map_map]
    rfl

theorem indexOf_eq_none_of_not_mem {c : α} (pat : List α) {line : List α} (h : c ∉ line) :
    indexOf (c :: pat) line = none := by
  have happend := indexOf_append pat h []
  rw [List.append_nil] at happend
  rw [happend]
  rfl

/-- The pattern right behind a text without its first letter. -/
theorem indexOf_line {c : α} (pat : List α) {line : List α} (h : c ∉ line) (s : List α) :
    indexOf (c :: pat) (line ++ (c :: pat ++ s)) = some line.length := by
  rw [indexOf_append pat h, indexOf_append_self]
  simp

theorem indexOf_le {pat s : List α} {i : Nat} (h : indexOf pat s = some i) :
    i + pat.length ≤ s.length := by
  induction s generalizing i with
  | nil =>
    unfold indexOf at h
    split at h
    · rename_i hnil
      obtain rfl := Option.some.inj h
      simp [hnil]
    · cases h
  | cons a s ih =>
    unfold indexOf at h
    split at h
    · rename_i hpre
      obtain rfl := Option.some.inj h
      simpa using hpre.length_le
    · obtain ⟨j, hj, rfl⟩ := Option.map_eq_some_iff.mp h
      have hle := ih hj
      rw [List.length_cons]
      omega

/-- The pattern lies where it is found. -/
theorem indexOf_matches {pat s : List α} {i : Nat} (h : indexOf pat s = some i) :
    pat <+: s.drop i := by
  induction s generalizing i with
  | nil =>
    unfold indexOf at h
    split at h
    · rename_i hnil
      rw [hnil]
      exact List.nil_prefix
    · cases h
  | cons a s ih =>
    unfold indexOf at h
    split at h
    · rename_i hpre
      obtain rfl := Option.some.inj h
      exact hpre
    · obtain ⟨j, hj, rfl⟩ := Option.map_eq_some_iff.mp h
      exact ih hj

/-- More text behind an occurrence does not move the first one. -/
theorem indexOf_append_of_some {pat s : List α} {i : Nat} (h : indexOf pat s = some i)
    (t : List α) : indexOf pat (s ++ t) = some i := by
  induction s generalizing i with
  | nil =>
    unfold indexOf at h
    split at h
    · rename_i hnil
      rw [hnil, ← h, List.nil_append]
      exact indexOf_append_self [] t
    · cases h
  | cons a s ih =>
    by_cases hpre : pat <+: a :: s
    · rw [indexOf, if_pos hpre] at h
      have hlong : pat <+: a :: (s ++ t) := hpre.trans (List.prefix_append (a :: s) t)
      rw [List.cons_append, indexOf, if_pos hlong, h]
    · rw [indexOf_cons hpre] at h
      obtain ⟨j, hj, rfl⟩ := Option.map_eq_some_iff.mp h
      have hle := indexOf_le hj
      -- the pattern fits into the shorter text, so the longer one does not begin with it either
      have hnot : ¬pat <+: a :: (s ++ t) := by
        intro hlong
        rw [← List.cons_append] at hlong
        exact hpre (List.prefix_of_prefix_length_le hlong (List.prefix_append (a :: s) t)
          (by rw [List.length_cons]; omega))
      rw [List.cons_append, indexOf_cons hnot, ih hj, Option.map_some]

/-- A pattern that lies somewhere is found. -/
theorem indexOf_ne_none {pat s : List α} {i : Nat} (h : pat <+: s.drop i) : indexOf pat s ≠ none := by
  induction s generalizing i with
  | nil =>
    rw [List.drop_nil, List.prefix_nil] at h
    simp [indexOf, h]
  | cons a s ih =>
    by_cases hpre : pat <+: a :: s
    · simp [indexOf, hpre]
    · cases i with
      | zero => exact absurd h hpre
      | succ i =>
        rw [indexOf_cons hpre]
        simpa using ih h

/-- One more letter completes the first occurrence, or there is none yet. -/
theorem indexOf_snoc {pat s : List α} {a : α} (h : indexOf pat s = none) : indexOf pat (s ++ [a]) =
    if pat <:+ s ++ [a] then some (s.length + 1 - pat.length) else none := by
  have hlen : (s ++ [a]).length = s.length + 1 := List.length_append
  cases hfind : indexOf pat (s ++ [a]) with
  | none =>
    refine (if_neg fun hsuffix => ?_).symm
    obtain ⟨front, hfront⟩ := hsuffix
    refine indexOf_ne_none (s := s ++ [a]) (i := front.length) ?_ hfind
    rw [← hfront, List.drop_left]
  | some i =>
    have hle := indexOf_le hfind
    have hmatch := indexOf_matches hfind
    rw [hlen] at hle
    have hend : i + pat.length = s.length + 1 := by
      by_contra hne
      -- the occurrence ends in front of the last letter
      refine indexOf_ne_none (i := i) ?_ h
      rw [List.drop_append_of_le_length (by omega)] at hmatch
      exact List.prefix_of_prefix_length_le hmatch (List.prefix_append _ [a])
        (by rw [List.length_drop]; omega)
    have hsuffix : pat <:+ s ++ [a] := by
      have heq : pat = (s ++ [a]).drop i := by
        refine hmatch.eq_of_length ?_
        rw [List.length_drop]
        omega
      rw [heq]
      exact List.drop_suffix ..
    rw [if_pos hsuffix]
    congr 1
    omega

/-- A text that is cut before its first occurrence ends has none. -/
theorem indexOf_take_line {c : α} (pat : List α) {line : List α} (h : c ∉ line) (s : List α) {i : Nat}
    (hi : i < line.length + (c :: pat).length) :
    indexOf (c :: pat) ((line ++ (c :: pat ++ s)).take i) = none := by
  cases hfind : indexOf (c :: pat) ((line ++ (c :: pat ++ s)).take i) with
  | none => rfl
  | some j =>
    have hwhole := indexOf_append_of_some hfind ((line ++ (c :: pat ++ s)).drop i)
    rw [List.take_append_drop, indexOf_line pat h] at hwhole
    have hj := Option.some.inj hwhole
    have hle := indexOf_le hfind
    have hcut := List.length_take_le i (line ++ (c :: pat ++ s))
    omega

/-! ### In a buffer -/

/-- Whether the pattern lies at the index, read letter by letter. -/
def matchAt (d : List α) : List α → Nat → Option Bool
  | [], _ => some true
  | c :: pat, i => do
    let a ← d[i]?
    if a = c then matchAt d pat (i + 1) else some false

/-- The loop of a search from `i` on. -/
def findLoop (pat d : List α) : Nat → Nat → Option (Option Nat)
  | 0, _ => none
  | fuel + 1, i =>
    if i + pat.length ≤ d.length then do
      if ← matchAt d pat i then some (some i) else findLoop pat d fuel (i + 1)
    else some none

theorem matchAt_eq {d pat : List α} {i : Nat} (h : i + pat.length ≤ d.length) :
    matchAt d pat i = some (decide (pat <+: d.drop i)) := by
  induction pat generalizing i with
  | nil => simp [matchAt]
  | cons c pat ih =>
    rw [List.length_cons] at h
    have hi : i < d.length := by omega
    rw [matchAt, List.getElem?_eq_getElem hi, List.drop_eq_getElem_cons hi]
    simp only [Option.bind_eq_bind, Option.bind_some]
    by_cases heq : d[i] = c
    · rw [if_pos heq, ih (by omega)]
      simp [heq]
    · rw [if_neg heq, decide_eq_false (not_isPrefix_of_head heq)]

/-- A search in a buffer ends, and finds the first occurrence. -/
theorem findLoop_eq (c : α) (pat : List α) {d : List α} {fuel i : Nat} (hpos : 0 < fuel)
    (hfuel : d.length < fuel + i) :
    findLoop (c :: pat) d fuel i = some ((indexOf (c :: pat) (d.drop i)).map (· + i)) := by
  induction fuel generalizing i with
  | zero => omega
  | succ fuel ih =>
    unfold findLoop
    by_cases hroom : i + (c :: pat).length ≤ d.length
    · have hi : i < d.length := by
        rw [List.length_cons] at hroom
        omega
      rw [if_pos hroom, matchAt_eq hroom, Option.bind_eq_bind, Option.bind_some]
      rw [List.drop_eq_getElem_cons hi]
      by_cases hmatch : c :: pat <+: d[i] :: d.drop (i + 1)
      · rw [decide_eq_true hmatch, if_pos rfl, indexOf, if_pos hmatch, Option.map_some,
          Nat.zero_add]
      · rw [decide_eq_false hmatch, if_neg (by decide), indexOf_cons hmatch,
          ih (by omega) (by omega), Option.map_map]
        exact congrArg some (congrArg (Option.map · _) (funext fun j => by
          simp only [Function.comp_apply]
          omega))
    · rw [if_neg hroom]
      cases hfind : indexOf (c :: pat) (d.drop i) with
      | none => rfl
      | some j =>
        have hle := indexOf_le hfind
        rw [List.length_drop, List.length_cons] at hle
        rw [List.length_cons] at hroom
        omega

end NetDebugger.Lib
