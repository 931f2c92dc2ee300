import NetDebugger.Http.Parse

/-! The parser on arbitrary bytes: it ends, stays in the buffer, and what it stores of a body keeps to
the cap.  `Chunks` is the loop over the chunks without its fuel. -/

namespace NetDebugger.Http

open Lib

/-- The first line end from `off` on. -/
def findLine (d : Bytes) (off : Nat) : Option Nat := (indexOf crlf (d.drop off)).map (· + off)

/-- The bytes of a line. -/
def lineAt (d : Bytes) (off le : Nat) : Bytes := (d.drop off).take (le - off)

variable {d : Bytes}

theorem findCRLF_eq (d : Bytes) (off : Nat) : findCRLF d off = some (findLine d off) := by
  unfold findCRLF
  rw [show crlf = 0x0D :: [0x0A] from rfl, findLoop_eq _ _ (Nat.succ_pos _) (by omega)]
  rfl

theorem findDoubleCRLF_eq (d : Bytes) (off : Nat) :
    findDoubleCRLF d off = some ((indexOf (crlf ++ crlf) (d.drop off)).map (· + off)) := by
  unfold findDoubleCRLF
  rw [show crlf ++ crlf = 0x0D :: [0x0A, 0x0D, 0x0A] from rfl,
    findLoop_eq _ _ (Nat.succ_pos _) (by omega)]

/-- A pattern is found in the buffer. -/
theorem find_bounds {c : UInt8} {pat : Bytes} {off i : Nat}
    (h : (indexOf (c :: pat) (d.drop off)).map (· + off) = some i) :
    off ≤ i ∧ i + (c :: pat).length ≤ d.length := by
  obtain ⟨j, hj, rfl⟩ := Option.map_eq_some_iff.mp h
  have hle := indexOf_le hj
  rw [List.length_drop, List.length_cons] at hle
  rw [List.length_cons]
  omega

theorem findLine_bounds {off le : Nat} (h : findLine d off = some le) :
    off ≤ le ∧ le + 2 ≤ d.length := find_bounds h

/-- Too little is left for a line end. -/
theorem findLine_short {off : Nat} (h : d.length < off + 2) : findLine d off = none := by
  cases hfind : findLine d off with
  | none => rfl
  | some le =>
    obtain ⟨hlow, hhigh⟩ := findLine_bounds hfind
    omega

theorem slice_line {off le : Nat} (h : findLine d off = some le) :
    slice d off (le - off) = some (lineAt d off le) := by
  obtain ⟨hlow, hhigh⟩ := findLine_bounds h
  exact slice_of_le (by omega)

/-- A piece of the buffer is stored as far as the cap leaves room. -/
theorem appendCapped_eq {off len : Nat} (h : off + len ≤ d.length) (body : Bytes)
    (truncated : Bool) : ∃ t, appendCapped d off len body truncated =
      some (body ++ ((d.drop off).take len).take (kMaxBody - body.length), t) := by
  unfold appendCapped
  by_cases hfull : body.length ≥ kMaxBody
  · rw [if_pos hfull, Nat.sub_eq_zero_of_le hfull, List.take_zero, List.append_nil]
    exact ⟨_, rfl⟩
  · rw [if_neg hfull]
    simp only [slice_of_le (show off + min len (kMaxBody - body.length) ≤ d.length by omega)]
    rw [List.take_take, Nat.min_comm]
    exact ⟨_, rfl⟩

theorem appendCapped_prefix {off len : Nat} (h : off + len ≤ d.length) {body b : Bytes}
    {truncated t : Bool} (happend : appendCapped d off len body truncated = some (b, t)) :
    body <+: b ∧ b.length ≤ body.length + len ∧ (body.length ≤ kMaxBody → b.length ≤ kMaxBody) := by
  obtain ⟨t', heq⟩ := appendCapped_eq h body truncated
  rw [happend] at heq
  obtain rfl := (Prod.mk.inj (Option.some.inj heq)).1
  refine ⟨List.prefix_append .., ?_, fun hcap => ?_⟩ <;>
  · simp only [List.length_append, List.length_take]
    omega

/-! ### The chunks -/

/-- The place behind a separator, when it is there. -/
def skipSeparator (d : Bytes) (p : Nat) : Nat :=
  if p + 2 ≤ d.length ∧ crlf <+: d.drop p then p + 2 else p

/-- From `p` on, the chunks are stored behind a body: where they end, the body, and whether it was
truncated. -/
inductive Chunks (d : Bytes) : Nat → Bytes → Bool → Nat × Bytes × Bool → Prop
  | missing {p : Nat} {body : Bytes} {t : Bool} (hline : findLine d p = none) :
      Chunks d p body t (d.length, body, true)
  | last {p le : Nat} {body : Bytes} {t : Bool} (hline : findLine d p = some le)
      (hsize : chunkSize (lineAt d p le) = 0) :
      Chunks d p body t (((findLine d (le + 2)).map (· + 2)).getD d.length, body, t)
  | cut {p le : Nat} {body b : Bytes} {t t' : Bool} (hline : findLine d p = some le)
      (hsize : chunkSize (lineAt d p le) ≠ 0)
      (hcut : d.length < le + 2 + chunkSize (lineAt d p le))
      (happend : appendCapped d (le + 2) (d.length - (le + 2)) body t = some (b, t')) :
      Chunks d p body t (d.length, b, t')
  | chunk {p le : Nat} {body b : Bytes} {t t' : Bool} {r : Nat × Bytes × Bool}
      (hline : findLine d p = some le) (hsize : chunkSize (lineAt d p le) ≠ 0)
      (hfit : le + 2 + chunkSize (lineAt d p le) ≤ d.length)
      (happend : appendCapped d (le + 2) (chunkSize (lineAt d p le)) body t = some (b, t'))
      (hrest : Chunks d (skipSeparator d (le + 2 + chunkSize (lineAt d p le))) b t' r) :
      Chunks d p body t r

theorem skipSeparator_bounds {p : Nat} (h : p ≤ d.length) :
    p ≤ skipSeparator d p ∧ skipSeparator d p ≤ d.length := by
  unfold skipSeparator
  split <;> omega

/-- Every start in the buffer has a result. -/
theorem chunks_exists {p : Nat} (hp : p ≤ d.length) (body : Bytes) (t : Bool) :
    ∃ r, Chunks d p body t r := by
  induction hk : d.length - p using Nat.strong_induction_on generalizing p body t with
  | _ k ih =>
  cases hline : findLine d p with
  | none => exact ⟨_, .missing hline⟩
  | some le =>
    obtain ⟨hlow, hhigh⟩ := findLine_bounds hline
    by_cases hsize : chunkSize (lineAt d p le) = 0
    · exact ⟨_, .last hline hsize⟩
    by_cases hcut : d.length < le + 2 + chunkSize (lineAt d p le)
    · obtain ⟨t', happend⟩ := appendCapped_eq
        (show le + 2 + (d.length - (le + 2)) ≤ d.length by omega) body t
      exact ⟨_, .cut hline hsize hcut happend⟩
    · have hfit := Nat.le_of_not_lt hcut
      obtain ⟨t', happend⟩ := appendCapped_eq hfit body t
      obtain ⟨hmore, hstop⟩ := skipSeparator_bounds hfit
      obtain ⟨r, hrest⟩ := ih _ (by omega) hstop _ t' rfl
      exact ⟨r, .chunk hline hsize hfit happend hrest⟩

/-- What holds wherever the chunks end. -/
structure Stored (d : Bytes) (p : Nat) (body : Bytes) (r : Nat × Bytes × Bool) : Prop where
  low : p ≤ r.1
  forward : p < d.length → p < r.1
  high : r.1 ≤ d.length
  kept : body <+: r.2.1
  spent : r.2.1.length ≤ body.length + (r.1 - p)
  capped : body.length ≤ kMaxBody → r.2.1.length ≤ kMaxBody

theorem Chunks.stored {p : Nat} {body : Bytes} {t : Bool} {r : Nat × Bytes × Bool}
    (h : Chunks d p body t r) (hp : p ≤ d.length) : Stored d p body r := by
  induction h with
  | missing => exact ⟨hp, id, Nat.le_refl _, List.prefix_rfl, Nat.le_add_right .., id⟩
  | @last p le body t hline hsize =>
    obtain ⟨hlow, hhigh⟩ := findLine_bounds hline
    cases hnext : findLine d (le + 2) with
    | none => exact ⟨hp, id, Nat.le_refl _, List.prefix_rfl, Nat.le_add_right .., id⟩
    | some e =>
      obtain ⟨hlow', hhigh'⟩ := findLine_bounds hnext
      simp only [Option.map_some, Option.getD_some]
      exact ⟨by simp only; omega, fun _ => by simp only; omega, hhigh', List.prefix_rfl,
        Nat.le_add_right .., id⟩
  | cut hline hsize hcut happend =>
    obtain ⟨hlow, hhigh⟩ := findLine_bounds hline
    obtain ⟨hkept, hspent, hcap⟩ := appendCapped_prefix (by omega) happend
    exact ⟨hp, id, Nat.le_refl _, hkept, by simp only; omega, hcap⟩
  | chunk hline hsize hfit happend hrest ih =>
    obtain ⟨hlow, hhigh⟩ := findLine_bounds hline
    obtain ⟨hkept, hspent, hcap⟩ := appendCapped_prefix hfit happend
    obtain ⟨hmore, hstop⟩ := skipSeparator_bounds hfit
    have hstored := ih hstop
    have hnext := hstored.low
    have hrest := hstored.spent
    exact ⟨by omega, fun _ => by omega, hstored.high, hkept.trans hstored.kept, by omega,
      fun hsmall => hstored.capped (hcap hsmall)⟩

/-- The loop has this result. -/
theorem chunkLoop_of_chunks {p : Nat} {body : Bytes} {t : Bool} {r : Nat × Bytes × Bool}
    (h : Chunks d p body t r) {fuel : Nat} (hp : p ≤ d.length) (hfuel : d.length < fuel + p) :
    chunkLoop d fuel p body t = some r := by
  induction h generalizing fuel with
  | missing hline =>
    obtain ⟨fuel, rfl⟩ := Nat.exists_eq_succ_of_ne_zero (show fuel ≠ 0 by omega)
    unfold chunkLoop
    simp only [findCRLF_eq, hline, Option.bind_eq_bind, Option.bind_some]
  | @last p le body t hline hsize =>
    obtain ⟨fuel, rfl⟩ := Nat.exists_eq_succ_of_ne_zero (show fuel ≠ 0 by omega)
    unfold chunkLoop
    simp only [findCRLF_eq, hline, Option.bind_eq_bind, Option.bind_some, slice_line hline, hsize,
      if_true]
    cases findLine d (le + 2) <;> rfl
  | cut hline hsize hcut happend =>
    obtain ⟨fuel, rfl⟩ := Nat.exists_eq_succ_of_ne_zero (show fuel ≠ 0 by omega)
    unfold chunkLoop
    simp only [findCRLF_eq, hline, Option.bind_eq_bind, Option.bind_some, slice_line hline, hsize,
      if_false, gt_iff_lt, hcut, if_true, happend]
  | @chunk p le body b t t' r hline hsize hfit happend hrest ih =>
    obtain ⟨fuel, rfl⟩ := Nat.exists_eq_succ_of_ne_zero (show fuel ≠ 0 by omega)
    obtain ⟨hlow, hhigh⟩ := findLine_bounds hline
    obtain ⟨hmore, hstop⟩ := skipSeparator_bounds hfit
    have hnext := ih hstop (show d.length < fuel + _ by omega)
    unfold chunkLoop
    simp only [findCRLF_eq, hline, Option.bind_eq_bind, Option.bind_some, slice_line hline, hsize,
      if_false, gt_iff_lt, Nat.not_lt.mpr hfit, happend]
    unfold skipSeparator at hnext
    by_cases hroom : le + 2 + chunkSize (lineAt d p le) + 2 ≤ d.length
    · rw [if_pos hroom, matchAt_eq hroom, Option.bind_some]
      simpa only [hroom, true_and, decide_eq_true_eq] using hnext
    · rw [if_neg hroom]
      simpa only [hroom, false_and, if_false] using hnext

theorem chunkLoop_iff {p : Nat} {body : Bytes} {t : Bool} {r : Nat × Bytes × Bool}
    (hp : p ≤ d.length) : chunkLoop d (d.length + 1) p body t = some r ↔ Chunks d p body t r := by
  constructor
  · intro hloop
    obtain ⟨r', hchunks⟩ := chunks_exists hp body t
    rw [chunkLoop_of_chunks hchunks hp (by omega)] at hloop
    exact Option.some.inj hloop ▸ hchunks
  · intro hchunks
    exact chunkLoop_of_chunks hchunks hp (by omega)

/-! ### The body -/

/-- What a body adds to a message, and where it may end. -/
structure Bodied (d : Bytes) (bodyStart : Nat) (m q : HttpMessage) (stop : Nat) : Prop where
  low : bodyStart ≤ stop
  high : stop ≤ d.length
  head : ∃ body t n, q = { m with body, bodyTruncated := t, bodyBytes := n }
  kept : m.body <+: q.body
  spent : q.body.length ≤ m.body.length + (stop - bodyStart)
  capped : m.body.length ≤ kMaxBody → q.body.length ≤ kMaxBody

theorem parseBody_total {bodyStart : Nat} (h : bodyStart ≤ d.length) (asResponse : Bool)
    (m : HttpMessage) :
    ∃ q stop, parseBody d bodyStart asResponse m = some (q, stop) ∧
      Bodied d bodyStart m q stop := by
  unfold parseBody
  by_cases hchunked : m.chunked = true
  · obtain ⟨r, hchunks⟩ := chunks_exists h m.body m.bodyTruncated
    have hstored := hchunks.stored h
    rw [if_pos hchunked, (chunkLoop_iff h).mpr hchunks]
    exact ⟨_, _, rfl, hstored.low, hstored.high, ⟨_, _, _, rfl⟩, hstored.kept, hstored.spent,
      hstored.capped⟩
  rw [if_neg hchunked]
  cases httpFindHeader m.headers (text "Content-Length") with
  | some cl =>
    have hroom : bodyStart + min (strtoul 10 cl.value) (d.length - bodyStart) ≤ d.length := by
      omega
    obtain ⟨t, happend⟩ := appendCapped_eq hroom m.body m.bodyTruncated
    obtain ⟨hkept, hspent, hcap⟩ := appendCapped_prefix hroom happend
    simp only [happend, Option.bind_eq_bind, Option.bind_some]
    exact ⟨_, _, rfl, Nat.le_add_right .., hroom, ⟨_, _, _, rfl⟩, hkept, by simp, hcap⟩
  | none =>
    cases asResponse with
    | true =>
      have hroom : bodyStart + (d.length - bodyStart) ≤ d.length := by omega
      obtain ⟨t, happend⟩ := appendCapped_eq hroom m.body m.bodyTruncated
      obtain ⟨hkept, hspent, hcap⟩ := appendCapped_prefix hroom happend
      simp only [happend, Option.bind_eq_bind, Option.bind_some, if_true]
      exact ⟨_, _, rfl, h, Nat.le_refl _, ⟨_, _, _, rfl⟩, hkept, hspent, hcap⟩
    | false => exact
      ⟨_, _, rfl, Nat.le_refl _, h, ⟨_, _, _, rfl⟩, List.prefix_rfl, Nat.le_add_right .., id⟩

theorem parseBody_bodied {bodyStart : Nat} (h : bodyStart ≤ d.length) {asResponse : Bool}
    {m q : HttpMessage} {stop : Nat} (hbody : parseBody d bodyStart asResponse m = some (q, stop)) :
    Bodied d bodyStart m q stop := by
  obtain ⟨q', stop', hbody', hq⟩ := parseBody_total h asResponse m
  rw [hbody] at hbody'
  obtain ⟨rfl, rfl⟩ := Prod.mk.inj (Option.some.inj hbody')
  exact hq

/-! ### The head -/

/-- `ParseOne` up to the body: the message so far, and where its body starts. -/
def parseHead (d : Bytes) (off : Nat) (asResponse : Bool) : Option (Option (HttpMessage × Nat)) := do
  if !(← looksLikeStartLine d off asResponse) then some none
  else
    match ← findDoubleCRLF d off with
    | none => some none
    | some hdrEnd =>
      let head ← slice d off (hdrEnd - off)
      let (startLine, rest) := cutLine head
      match parseStartLine asResponse startLine
          { HttpMessage.empty with isRequest := !asResponse } with
      | none => some none
      | some m => do
        let m ← parseHeaders (head.length + 1) rest m
        some (some (m, hdrEnd + 4))

/-- A message of the parser: it is complete, and ends at the offset. -/
def HttpMessage.done (q : HttpMessage) (stop : Nat) : HttpMessage :=
  { q with valid := true, consumed := stop }

theorem parseOne_eq (d : Bytes) (off : Nat) (asResponse : Bool) :
    parseOne d off asResponse = (parseHead d off asResponse).bind fun
      | none => some none
      | some (m, bodyStart) =>
        (parseBody d bodyStart asResponse m).map fun r => some (r.1.done r.2, r.2) := by
  unfold parseOne parseHead
  cases looksLikeStartLine d off asResponse with
  | none => rfl
  | some looks =>
    cases looks with
    | false => rfl
    | true =>
      simp only [findDoubleCRLF_eq, Option.bind_eq_bind, Option.bind_some, Bool.not_true,
        Bool.false_eq_true, if_false]
      cases (indexOf (crlf ++ crlf) (d.drop off)).map (· + off) with
      | none => rfl
      | some hdrEnd =>
        simp only
        cases slice d off (hdrEnd - off) with
        | none => rfl
        | some head =>
          simp only [Option.bind_some]
          cases parseStartLine asResponse (cutLine head).1
              { HttpMessage.empty with isRequest := !asResponse } with
          | none => rfl
          | some m =>
            simp only
            cases parseHeaders (head.length + 1) (cutLine head).2 m with
            | none => rfl
            | some m =>
              simp only [Option.bind_some]
              cases parseBody d (hdrEnd + 4) asResponse m <;> rfl

theorem cutLine_shorter {head : Bytes} (h : head ≠ []) :
    (cutLine head).2.length < head.length := by
  have hpos := List.length_pos_of_ne_nil h
  unfold cutLine cut
  cases hfind : indexOf crlf head with
  | none => exact hpos
  | some i =>
    have hle := indexOf_le hfind
    have htwo : crlf.length = 2 := rfl
    simp only [Option.map_some, Option.getD_some, List.length_drop]
    omega

/-- Nothing of a body is stored yet. -/
def Bodyless (m : HttpMessage) : Prop := m.body = [] ∧ m.bodyTruncated = false

theorem addHeader_bodyless (line : Bytes) {m : HttpMessage} (h : Bodyless m) :
    Bodyless (addHeader line m) := by
  unfold addHeader
  cases cut [0x3A] line with
  | none => exact h
  | some nv =>
    dsimp only
    split_ifs <;> exact h

theorem parseHeaders_total {fuel : Nat} {head : Bytes} (hfuel : head.length < fuel)
    {m : HttpMessage} (h : Bodyless m) : ∃ m', parseHeaders fuel head m = some m' ∧ Bodyless m' := by
  induction fuel generalizing head m with
  | zero => omega
  | succ fuel ih =>
    unfold parseHeaders
    by_cases hnil : head = []
    · exact ⟨m, if_pos hnil, h⟩
    rw [if_neg hnil]
    have hshort := cutLine_shorter hnil
    generalize cutLine head = cutting at hshort
    by_cases hblank : cutting.1 = []
    · exact ⟨m, if_pos hblank, h⟩
    · obtain ⟨m', hrest, hm'⟩ := @ih cutting.2 (by omega) _ (addHeader_bodyless cutting.1 h)
      exact ⟨m', by rw [← hrest]; exact if_neg hblank, hm'⟩

theorem parseStartLine_bodyless {asResponse : Bool} {line : Bytes} {m m' : HttpMessage}
    (h : Bodyless m) (hparse : parseStartLine asResponse line m = some m') : Bodyless m' := by
  cases asResponse with
  | true =>
    simp only [parseStartLine, parseStatusLine, if_true, Option.bind_eq_bind,
      Option.bind_eq_some_iff] at hparse
    obtain ⟨_, -, hparse⟩ := hparse
    split at hparse
    · cases hparse
    · exact Option.some.inj hparse ▸ h
  | false =>
    simp only [parseStartLine, parseRequestLine, Bool.false_eq_true, if_false,
      Option.bind_eq_bind, Option.bind_eq_some_iff] at hparse
    obtain ⟨_, -, _, -, hparse⟩ := hparse
    split at hparse
    · cases hparse
    · exact Option.some.inj hparse ▸ h

theorem looksLikeStartLine_total (d : Bytes) (off : Nat) (asResponse : Bool) :
    ∃ looks, looksLikeStartLine d off asResponse = some looks := by
  unfold looksLikeStartLine
  by_cases hend : off ≥ d.length
  · exact ⟨_, if_pos hend⟩
  rw [if_neg hend]
  cases asResponse with
  | true =>
    by_cases hfive : off + 5 ≤ d.length
    · rw [if_pos rfl, if_pos hfive, slice_of_le hfive]
      exact ⟨_, rfl⟩
    · exact ⟨_, by rw [if_pos rfl, if_neg hfive]⟩
  | false =>
    rw [if_neg (by decide), List.getElem?_eq_getElem (Nat.lt_of_not_le hend)]
    exact ⟨_, rfl⟩

/-- The head that is read at an offset, if any, ends in the buffer. -/
theorem parseHead_total (d : Bytes) (off : Nat) (asResponse : Bool) :
    ∃ r, parseHead d off asResponse = some r ∧
      ∀ m bodyStart, r = some (m, bodyStart) →
        off < bodyStart ∧ bodyStart ≤ d.length ∧ Bodyless m := by
  obtain ⟨looks, hlooks⟩ := looksLikeStartLine_total d off asResponse
  unfold parseHead
  rw [hlooks]
  cases looks with
  | false => exact ⟨none, rfl, by simp⟩
  | true =>
    simp only [findDoubleCRLF_eq, Option.bind_eq_bind, Option.bind_some, Bool.not_true,
      Bool.false_eq_true, if_false]
    cases hfind : (indexOf (crlf ++ crlf) (d.drop off)).map (· + off) with
    | none => exact ⟨none, rfl, by simp⟩
    | some hdrEnd =>
      obtain ⟨hlow, hhigh⟩ := find_bounds hfind
      have hfour : hdrEnd + 4 ≤ d.length := hhigh
      simp only [slice_of_le (show off + (hdrEnd - off) ≤ d.length by omega), Option.bind_some]
      generalize hhead : (d.drop off).take (hdrEnd - off) = head
      cases hstart : parseStartLine asResponse (cutLine head).1
          { HttpMessage.empty with isRequest := !asResponse } with
      | none => exact ⟨none, rfl, by simp⟩
      | some m =>
        have hm := parseStartLine_bodyless ⟨rfl, rfl⟩ hstart
        have hfuel : (cutLine head).2.length < head.length + 1 := by
          by_cases hnil : head = []
          · subst hnil
            decide
          · exact Nat.lt_succ_of_lt (cutLine_shorter hnil)
        obtain ⟨m', hheaders, hm'⟩ := parseHeaders_total hfuel hm
        refine ⟨some (m', hdrEnd + 4), ?_, ?_⟩
        · simp only [hheaders, Option.bind_some]
        · rintro _ _ h
          obtain ⟨rfl, rfl⟩ := Prod.mk.inj (Option.some.inj h)
          exact ⟨by omega, hhigh, hm'⟩

/-! ### The stream -/

/-- A message that is read at an offset. -/
structure Parsed (d : Bytes) (off : Nat) (q : HttpMessage) (stop : Nat) : Prop where
  forward : off < stop
  high : stop ≤ d.length
  consumed : q.consumed = stop
  capped : q.body.length ≤ kMaxBody

theorem parseOne_total (d : Bytes) (off : Nat) (asResponse : Bool) :
    ∃ r, parseOne d off asResponse = some r ∧ ∀ q stop, r = some (q, stop) → Parsed d off q stop := by
  obtain ⟨r, hhead, hr⟩ := parseHead_total d off asResponse
  rw [parseOne_eq, hhead, Option.bind_some]
  cases r with
  | none => exact ⟨none, rfl, by simp⟩
  | some r =>
    obtain ⟨hlow, hhigh, hempty, -⟩ := hr r.1 r.2 rfl
    obtain ⟨q, stop, hbody, hq⟩ := parseBody_total hhigh asResponse r.1
    refine ⟨some (q.done stop, stop), ?_, ?_⟩
    · simp only [hbody, Option.map_some]
    · rintro _ _ h
      obtain ⟨rfl, rfl⟩ := Prod.mk.inj (Option.some.inj h)
      refine ⟨Nat.lt_of_lt_of_le hlow hq.low, hq.high, rfl, hq.capped ?_⟩
      rw [hempty]
      exact Nat.zero_le _

theorem skipBlank_total {fuel off : Nat} (hoff : off ≤ d.length) (hfuel : d.length < fuel + off) :
    ∃ start, skipBlank d fuel off = some start ∧ off ≤ start ∧ start ≤ d.length := by
  induction fuel generalizing off with
  | zero => omega
  | succ fuel ih =>
    by_cases hend : off < d.length
    · rw [skipBlank_at hend]
      by_cases hblank : d[off] = 0x0D ∨ d[off] = 0x0A
      · obtain ⟨start, hskip, hlow, hhigh⟩ := ih hend (by omega)
        exact ⟨start, by rw [if_pos hblank, hskip], by omega, hhigh⟩
      · exact ⟨off, if_neg hblank, Nat.le_refl _, hoff⟩
    · exact ⟨off, skipBlank_end hend fuel, Nat.le_refl _, hoff⟩

/-- A round of the loop that adds a message. -/
structure Round (d : Bytes) (asResponse : Bool) (off : Nat) (out : List HttpMessage) (start : Nat)
    (q : HttpMessage) (stop : Nat) : Prop where
  room : out.length < kMaxMessages
  skip : skipBlank d (d.length + 1) off = some start
  low : off ≤ start
  parse : parseOne d start asResponse = some (some (q, stop))
  parsed : Parsed d start q stop

theorem Round.loop {asResponse : Bool} {off start stop : Nat} {out : List HttpMessage}
    {q : HttpMessage} (h : Round d asResponse off out start q stop) (fuel : Nat) :
    httpParseLoop d asResponse (fuel + 1) off out =
      httpParseLoop d asResponse fuel stop (out ++ [q]) := by
  have hlow := h.low
  have hforward := h.parsed.forward
  have hhigh := h.parsed.high
  conv => lhs; unfold httpParseLoop
  rw [if_pos ⟨by omega, h.room⟩, h.skip, Option.bind_eq_bind, Option.bind_some,
    if_neg (by omega), h.parse, Option.bind_eq_bind, Option.bind_some]
  exact if_neg (by omega)

/-- The loop adds nothing, or it makes a round. -/
theorem httpParseLoop_cases {asResponse : Bool} {off : Nat} (hoff : off ≤ d.length) (fuel : Nat)
    (out : List HttpMessage) :
    httpParseLoop d asResponse (fuel + 1) off out = some out ∨
      ∃ start q stop, Round d asResponse off out start q stop := by
  unfold httpParseLoop
  by_cases hroom : off < d.length ∧ out.length < kMaxMessages
  · obtain ⟨start, hskip, hlow, hhigh⟩ :=
      @skipBlank_total d (d.length + 1) off hoff (by omega)
    rw [if_pos hroom, hskip, Option.bind_eq_bind, Option.bind_some]
    by_cases hend : start ≥ d.length
    · exact .inl (if_pos hend)
    rw [if_neg hend]
    obtain ⟨r, hparse, hr⟩ := parseOne_total d start asResponse
    cases r with
    | none => exact .inl (by rw [hparse]; rfl)
    | some r => exact .inr ⟨start, r.1, r.2, hroom.2, hskip, hlow, hparse, hr r.1 r.2 rfl⟩
  · exact .inl (if_neg hroom)

/-- The loop ends, and adds messages whose bodies keep to the cap. -/
theorem httpParseLoop_total {asResponse : Bool} {fuel off : Nat} (hoff : off ≤ d.length)
    (hfuel : d.length < fuel + off) (out : List HttpMessage) :
    ∃ more, httpParseLoop d asResponse fuel off out = some (out ++ more) ∧
      ∀ q ∈ more, q.body.length ≤ kMaxBody := by
  induction fuel generalizing off out with
  | zero => omega
  | succ fuel ih =>
    rcases httpParseLoop_cases hoff fuel out with hnone | ⟨start, q, stop, hround⟩
    · exact ⟨[], by rw [hnone, List.append_nil], by simp⟩
    have hlow := hround.low
    have hforward := hround.parsed.forward
    obtain ⟨more, hmore, hcapped⟩ := ih hround.parsed.high (by omega) (out ++ [q])
    refine ⟨q :: more, ?_, ?_⟩
    · rw [hround.loop, hmore, List.append_assoc, List.singleton_append]
    · exact List.forall_mem_cons.mpr ⟨hround.parsed.capped, hcapped⟩

/-- The first message of the result is the one that was there. -/
theorem httpParseLoop_first {asResponse : Bool} {fuel off : Nat} (hoff : off ≤ d.length)
    (hfuel : d.length < fuel + off) {out ms : List HttpMessage} {m q : HttpMessage}
    (h : httpParseLoop d asResponse fuel off (out ++ [q]) = some (out ++ m :: ms)) : m = q := by
  obtain ⟨more, hmore, -⟩ := httpParseLoop_total hoff hfuel (out ++ [q])
  rw [h] at hmore
  have heq := Option.some.inj hmore
  rw [List.append_assoc] at heq
  exact (List.cons.inj (List.append_cancel_left heq)).1

/-- `HttpParse` ends on every buffer without an access out of bounds. -/
theorem httpParse_total (d : Bytes) (asResponse : Bool) :
    ∃ ps, httpParse d asResponse = some ps ∧ ∀ q ∈ ps, q.body.length ≤ kMaxBody := by
  unfold httpParse
  by_cases hnil : d = []
  · exact ⟨[], if_pos hnil, by simp⟩
  · obtain ⟨more, hmore, hcapped⟩ :=
      @httpParseLoop_total d asResponse (d.length + 1) 0 (Nat.zero_le _) (by omega) []
    exact ⟨more, by rw [if_neg hnil, hmore, List.nil_append], hcapped⟩

end NetDebugger.Http
