import NetDebugger.Http.Total

/-! The buffer of a capture grows and is parsed again.  Every message but the last one ends in front
of the end of the shorter buffer and is read again as it was; the last one may go on. -/

namespace NetDebugger.Http

open Lib

variable {d : Bytes}

/-! ### What was found is found again -/

theorem find_append {pat : Bytes} {off i : Nat} (hoff : off ≤ d.length)
    (h : (indexOf pat (d.drop off)).map (· + off) = some i) (e : Bytes) :
    (indexOf pat ((d ++ e).drop off)).map (· + off) = some i := by
  obtain ⟨j, hj, rfl⟩ := Option.map_eq_some_iff.mp h
  rw [List.drop_append_of_le_length hoff, indexOf_append_of_some hj]
  rfl

theorem findLine_append {off le : Nat} (h : findLine d off = some le) (e : Bytes) :
    findLine (d ++ e) off = some le := by
  obtain ⟨hlow, hhigh⟩ := findLine_bounds h
  exact find_append (by omega) h e

theorem lineAt_append {off le : Nat} (hoff : off ≤ le) (hle : le ≤ d.length) (e : Bytes) :
    lineAt (d ++ e) off le = lineAt d off le := by
  unfold lineAt
  rw [List.drop_append_of_le_length (by omega),
    List.take_append_of_le_length (by rw [List.length_drop]; omega)]

theorem appendCapped_append {off len : Nat} (h : off + len ≤ d.length) (body : Bytes)
    (truncated : Bool) (e : Bytes) :
    appendCapped (d ++ e) off len body truncated = appendCapped d off len body truncated := by
  unfold appendCapped
  by_cases hfull : body.length ≥ kMaxBody
  · rw [if_pos hfull, if_pos hfull]
  · rw [if_neg hfull, if_neg hfull]
    simp only [slice_append (show off + min len (kMaxBody - body.length) ≤ d.length by omega)]

/-- A longer piece of the longer buffer stores no less. -/
theorem appendCapped_grow {off len len' : Nat} (h : off + len ≤ d.length) (hlen : len ≤ len')
    {e : Bytes} (h' : off + len' ≤ (d ++ e).length) {body b b' : Bytes} {t t1 t2 : Bool}
    (happend : appendCapped d off len body t = some (b, t1))
    (happend' : appendCapped (d ++ e) off len' body t = some (b', t2)) : b <+: b' := by
  obtain ⟨_, heq⟩ := appendCapped_eq h body t
  obtain ⟨_, heq'⟩ := appendCapped_eq h' body t
  rw [happend] at heq
  rw [happend'] at heq'
  obtain rfl := (Prod.mk.inj (Option.some.inj heq)).1
  obtain rfl := (Prod.mk.inj (Option.some.inj heq')).1
  have hshort : (d.drop off).take len = ((d ++ e).drop off).take len := by
    rw [List.drop_append_of_le_length (by omega),
      List.take_append_of_le_length (by rw [List.length_drop]; omega)]
  apply List.prefix_append_right_inj body |>.mpr
  rw [hshort, List.take_take, List.take_take]
  apply List.take_prefix_take_left
  omega

/-! ### The chunks -/

theorem skipSeparator_append {p : Nat} (h : p + 2 ≤ d.length) (e : Bytes) :
    skipSeparator (d ++ e) p = skipSeparator d p := by
  have hlong : p + 2 ≤ (d ++ e).length := by
    rw [List.length_append]
    omega
  have hpre : crlf <+: d.drop p ++ e ↔ crlf <+: d.drop p := by
    refine ⟨fun hcrlf => ?_, fun hcrlf => hcrlf.trans (List.prefix_append ..)⟩
    apply List.prefix_of_prefix_length_le hcrlf (List.prefix_append ..)
    rw [List.length_drop]
    show 2 ≤ d.length - p
    omega
  unfold skipSeparator
  rw [List.drop_append_of_le_length (by omega)]
  simp only [h, hlong, true_and, hpre]

/-- What was stored of a cut chunk is stored of it in a longer buffer. -/
theorem Chunks.grow_cut {p le : Nat} {body b : Bytes} {t t' : Bool} (hline : findLine d p = some le)
    (hsize : chunkSize (lineAt d p le) ≠ 0) (hcut : d.length < le + 2 + chunkSize (lineAt d p le))
    (happend : appendCapped d (le + 2) (d.length - (le + 2)) body t = some (b, t')) (e : Bytes) :
    ∃ r, Chunks (d ++ e) p body t r ∧ b <+: r.2.1 := by
  obtain ⟨hlow, hhigh⟩ := findLine_bounds hline
  have hle : d.length ≤ (d ++ e).length := by
    rw [List.length_append]
    omega
  have hsame := lineAt_append hlow (show le ≤ d.length by omega) e
  have hline' := findLine_append hline e
  have hsize' : chunkSize (lineAt (d ++ e) p le) ≠ 0 := by rwa [hsame]
  have hin : le + 2 + (d.length - (le + 2)) ≤ d.length := by omega
  by_cases hcut' : (d ++ e).length < le + 2 + chunkSize (lineAt (d ++ e) p le)
  · have hin' : le + 2 + ((d ++ e).length - (le + 2)) ≤ (d ++ e).length := by omega
    obtain ⟨t1, happend'⟩ := appendCapped_eq hin' body t
    exact ⟨_, .cut hline' hsize' hcut' happend',
      appendCapped_grow hin (by omega) hin' happend happend'⟩
  · have hfit' := Nat.le_of_not_lt hcut'
    obtain ⟨t1, happend'⟩ := appendCapped_eq hfit' body t
    obtain ⟨-, hstop⟩ := skipSeparator_bounds hfit'
    obtain ⟨r, hrest⟩ := chunks_exists hstop _ t1
    have hgrow := appendCapped_grow hin (by rw [hsame]; omega) hfit' happend happend'
    exact ⟨r, .chunk hline' hsize' hfit' happend' hrest, hgrow.trans (hrest.stored hstop).kept⟩

/-- The chunks of a longer buffer store no less, and the same when they ended in front of the end. -/
theorem Chunks.grow {p : Nat} {body : Bytes} {t : Bool} {r : Nat × Bytes × Bool}
    (h : Chunks d p body t r) (hp : p ≤ d.length) (e : Bytes) :
    ∃ r', Chunks (d ++ e) p body t r' ∧ r.2.1 <+: r'.2.1 ∧ (r.1 < d.length → r' = r) := by
  have hle : d.length ≤ (d ++ e).length := by
    rw [List.length_append]
    omega
  induction h with
  | @missing p body t hline =>
    obtain ⟨r', hchunks⟩ := chunks_exists (Nat.le_trans hp hle) body t
    exact ⟨r', hchunks, (hchunks.stored (Nat.le_trans hp hle)).kept,
      fun hlt => absurd hlt (Nat.lt_irrefl _)⟩
  | @last p le body t hline hsize =>
    obtain ⟨hlow, hhigh⟩ := findLine_bounds hline
    have hsize' : chunkSize (lineAt (d ++ e) p le) = 0 := by
      rwa [lineAt_append hlow (by omega)]
    refine ⟨_, .last (findLine_append hline e) hsize', List.prefix_rfl, fun hlt => ?_⟩
    cases hnext : findLine d (le + 2) with
    | none =>
      rw [hnext] at hlt
      exact absurd hlt (Nat.lt_irrefl _)
    | some stop =>
      rw [findLine_append hnext]
      rfl
  | @cut p le body b t t' hline hsize hcut happend =>
    obtain ⟨r', hchunks, hkept⟩ := Chunks.grow_cut hline hsize hcut happend e
    exact ⟨r', hchunks, hkept, fun hlt => absurd hlt (Nat.lt_irrefl _)⟩
  | @chunk p le body b t t' r hline hsize hfit happend hrest ih =>
    obtain ⟨hlow, hhigh⟩ := findLine_bounds hline
    have hsame := lineAt_append hlow (show le ≤ d.length by omega) e
    have hline' := findLine_append hline e
    obtain ⟨-, hstop⟩ := skipSeparator_bounds hfit
    rw [← hsame] at hsize hfit happend hrest ih hstop
    rw [← appendCapped_append hfit body t e] at happend
    have hfit' : le + 2 + chunkSize (lineAt (d ++ e) p le) ≤ (d ++ e).length := by omega
    by_cases hroom : le + 2 + chunkSize (lineAt (d ++ e) p le) + 2 ≤ d.length
    · obtain ⟨r', hrest', hkept, heq⟩ := ih hstop
      rw [← skipSeparator_append hroom e] at hrest'
      exact ⟨r', .chunk hline' hsize hfit' happend hrest', hkept, heq⟩
    · -- less than a separator is left, so nothing was read behind this chunk
      have hmissing : findLine d (skipSeparator d (le + 2 + chunkSize (lineAt (d ++ e) p le))) =
          none := by
        have hmore := (skipSeparator_bounds hfit).1
        exact findLine_short (by omega)
      have hr : r = (d.length, b, true) := by
        cases hrest <;> simp_all
      obtain ⟨-, hstop'⟩ := skipSeparator_bounds hfit'
      obtain ⟨r', hrest'⟩ := chunks_exists hstop' b t'
      subst hr
      exact ⟨r', .chunk hline' hsize hfit' happend hrest', (hrest'.stored hstop').kept,
        fun hlt => absurd hlt (Nat.lt_irrefl _)⟩

/-! ### A message -/

/-- Every field but the body and what goes with its length. -/
def SameHead (m q : HttpMessage) : Prop :=
  ∃ body t n stop, q = { m with body, bodyTruncated := t, bodyBytes := n, consumed := stop }

/-- The later message has the same head, and a body that goes on. -/
structure Grown (m q : HttpMessage) : Prop where
  head : SameHead m q
  body : m.body <+: q.body

theorem Bodied.sameHead {bodyStart stop stop' : Nat} {d' : Bytes} {m q q' : HttpMessage}
    (h : Bodied d bodyStart m q stop) (h' : Bodied d' bodyStart m q' stop') (n n' : Nat) :
    SameHead (q.done n) (q'.done n') := by
  obtain ⟨body, t, k, rfl⟩ := h.head
  obtain ⟨body', t', k', rfl⟩ := h'.head
  exact ⟨body', t', k', n', rfl⟩

theorem parseBody_grow {bodyStart : Nat} (h : bodyStart ≤ d.length) {asResponse : Bool}
    {m q : HttpMessage} {stop : Nat}
    (hbody : parseBody d bodyStart asResponse m = some (q, stop)) (e : Bytes) :
    ∃ q' stop', parseBody (d ++ e) bodyStart asResponse m = some (q', stop') ∧
      q.body <+: q'.body ∧ (stop < d.length → q' = q ∧ stop' = stop) := by
  have hle : d.length ≤ (d ++ e).length := by
    rw [List.length_append]
    omega
  unfold parseBody at hbody ⊢
  by_cases hchunked : m.chunked = true
  · rw [if_pos hchunked] at hbody ⊢
    obtain ⟨r, hchunks⟩ := chunks_exists h m.body m.bodyTruncated
    obtain ⟨r', hchunks', hkept, heq⟩ := hchunks.grow h e
    rw [(chunkLoop_iff h).mpr hchunks] at hbody
    rw [(chunkLoop_iff (Nat.le_trans h hle)).mpr hchunks']
    obtain ⟨rfl, rfl⟩ := Prod.mk.inj (Option.some.inj hbody)
    refine ⟨_, _, rfl, hkept, fun hlt => ?_⟩
    rw [heq hlt]
    exact ⟨rfl, rfl⟩
  rw [if_neg hchunked] at hbody ⊢
  cases hcl : httpFindHeader m.headers (text "Content-Length") with
  | some cl =>
    simp only [hcl] at hbody ⊢
    have hin : bodyStart + min (strtoul 10 cl.value) (d.length - bodyStart) ≤ d.length := by omega
    have hin' : bodyStart + min (strtoul 10 cl.value) ((d ++ e).length - bodyStart) ≤
        (d ++ e).length := by omega
    obtain ⟨t, happend⟩ := appendCapped_eq hin m.body m.bodyTruncated
    obtain ⟨t', happend'⟩ := appendCapped_eq hin' m.body m.bodyTruncated
    have hgrow := appendCapped_grow hin (by omega) hin' happend happend'
    by_cases hshort : strtoul 10 cl.value ≤ d.length - bodyStart
    · have htake : min (strtoul 10 cl.value) ((d ++ e).length - bodyStart) =
          min (strtoul 10 cl.value) (d.length - bodyStart) := by omega
      rw [htake, appendCapped_append hin]
      exact ⟨q, stop, hbody, List.prefix_rfl, fun _ => ⟨rfl, rfl⟩⟩
    · rw [happend, Option.bind_eq_bind, Option.bind_some] at hbody
      rw [happend', Option.bind_eq_bind, Option.bind_some]
      obtain ⟨rfl, rfl⟩ := Prod.mk.inj (Option.some.inj hbody)
      exact ⟨_, _, rfl, hgrow, fun hlt => by omega⟩
  | none =>
    simp only [hcl] at hbody ⊢
    cases asResponse with
    | true =>
      rw [if_pos rfl] at hbody ⊢
      have hin : bodyStart + (d.length - bodyStart) ≤ d.length := by omega
      have hin' : bodyStart + ((d ++ e).length - bodyStart) ≤ (d ++ e).length := by omega
      obtain ⟨t, happend⟩ := appendCapped_eq hin m.body m.bodyTruncated
      obtain ⟨t', happend'⟩ := appendCapped_eq hin' m.body m.bodyTruncated
      have hgrow := appendCapped_grow hin (by omega) hin' happend happend'
      rw [happend, Option.bind_eq_bind, Option.bind_some] at hbody
      rw [happend', Option.bind_eq_bind, Option.bind_some]
      obtain ⟨rfl, rfl⟩ := Prod.mk.inj (Option.some.inj hbody)
      exact ⟨_, _, rfl, hgrow, fun hlt => absurd hlt (Nat.lt_irrefl _)⟩
    | false => exact ⟨q, stop, hbody, List.prefix_rfl, fun _ => ⟨rfl, rfl⟩⟩

theorem looksLikeStartLine_append {off : Nat} {asResponse : Bool}
    (h : looksLikeStartLine d off asResponse = some true) (e : Bytes) :
    off < d.length ∧ looksLikeStartLine (d ++ e) off asResponse = some true := by
  have hle : d.length ≤ (d ++ e).length := by
    rw [List.length_append]
    omega
  unfold looksLikeStartLine at h ⊢
  by_cases hend : off ≥ d.length
  · rw [if_pos hend] at h
    cases h
  rw [if_neg hend] at h
  rw [if_neg (by omega)]
  refine ⟨Nat.lt_of_not_le hend, ?_⟩
  cases asResponse with
  | true =>
    rw [if_pos rfl] at h ⊢
    by_cases hfive : off + 5 ≤ d.length
    · rw [if_pos hfive] at h
      rwa [if_pos (Nat.le_trans hfive hle), slice_append hfive]
    · rw [if_neg hfive] at h
      cases h
  | false =>
    rw [if_neg (by decide)] at h ⊢
    rwa [List.getElem?_append_left (Nat.lt_of_not_le hend)]

theorem parseHead_append {off : Nat} {asResponse : Bool} {r : HttpMessage × Nat}
    (h : parseHead d off asResponse = some (some r)) (e : Bytes) :
    parseHead (d ++ e) off asResponse = some (some r) := by
  obtain ⟨looks, hlooks⟩ := looksLikeStartLine_total d off asResponse
  unfold parseHead at h ⊢
  rw [hlooks] at h
  cases looks with
  | false => cases h
  | true =>
    obtain ⟨hoff, hlooks'⟩ := looksLikeStartLine_append hlooks e
    rw [hlooks']
    simp only [findDoubleCRLF_eq, Option.bind_eq_bind, Option.bind_some, Bool.not_true,
      Bool.false_eq_true, if_false] at h ⊢
    cases hfind : (indexOf (crlf ++ crlf) (d.drop off)).map (· + off) with
    | none =>
      rw [hfind] at h
      cases h
    | some hdrEnd =>
      obtain ⟨hlow, hhigh⟩ := find_bounds hfind
      have hfour : hdrEnd + 4 ≤ d.length := hhigh
      rw [hfind] at h
      rw [find_append (Nat.le_of_lt hoff) hfind e]
      simp only [slice_append (show off + (hdrEnd - off) ≤ d.length by omega)] at h ⊢
      exact h

/-- A message that is read again with more bytes behind it. -/
theorem parseOne_grow {off : Nat} {asResponse : Bool} {q : HttpMessage} {stop : Nat}
    (h : parseOne d off asResponse = some (some (q, stop))) (e : Bytes) :
    ∃ q' stop', parseOne (d ++ e) off asResponse = some (some (q', stop')) ∧ Grown q q' ∧
      (stop < d.length → q' = q ∧ stop' = stop) := by
  obtain ⟨r, hhead, hr⟩ := parseHead_total d off asResponse
  rw [parseOne_eq, hhead, Option.bind_some] at h
  cases r with
  | none => cases h
  | some r =>
    obtain ⟨hlow, hhigh, -⟩ := hr r.1 r.2 rfl
    obtain ⟨q1, stop1, hbody, hq1⟩ := parseBody_total hhigh asResponse r.1
    obtain ⟨q2, stop2, hbody2, hkept, heq⟩ := parseBody_grow hhigh hbody e
    have hin : r.2 ≤ (d ++ e).length := by
      rw [List.length_append]
      omega
    have hq2 := parseBody_bodied hin hbody2
    simp only [hbody, Option.map_some] at h
    obtain ⟨rfl, rfl⟩ := Prod.mk.inj (Option.some.inj (Option.some.inj h))
    rw [parseOne_eq, parseHead_append hhead e, Option.bind_some]
    simp only [hbody2, Option.map_some]
    refine ⟨_, _, rfl, ⟨hq1.sameHead hq2 .., hkept⟩, fun hlt => ?_⟩
    obtain ⟨rfl, rfl⟩ := heq hlt
    exact ⟨rfl, rfl⟩

/-! ### The stream -/

theorem skipBlank_append {fuel off start : Nat} (h : skipBlank d fuel off = some start)
    (hstart : start < d.length) {e : Bytes} {fuel' : Nat}
    (hfuel : (d ++ e).length < fuel' + off) : skipBlank (d ++ e) fuel' off = some start := by
  induction fuel generalizing off fuel' with
  | zero => cases h
  | succ fuel ih =>
    by_cases hoff : off < d.length
    · rw [skipBlank_at hoff] at h
      have hlong : off < (d ++ e).length := by
        rw [List.length_append]
        omega
      obtain ⟨fuel', rfl⟩ := Nat.exists_eq_succ_of_ne_zero (show fuel' ≠ 0 by omega)
      rw [skipBlank_at hlong, List.getElem_append_left hoff]
      by_cases hblank : d[off] = 0x0D ∨ d[off] = 0x0A
      · rw [if_pos hblank] at h ⊢
        exact ih h (by omega)
      · rw [if_neg hblank] at h ⊢
        exact h
    · rw [skipBlank_end hoff] at h
      obtain rfl := Option.some.inj h
      exact absurd hstart hoff

theorem httpParseLoop_end (asResponse : Bool) (fuel : Nat) (out : List HttpMessage) :
    httpParseLoop d asResponse (fuel + 1) d.length out = some out := by
  unfold httpParseLoop
  exact if_neg fun h => Nat.lt_irrefl _ h.1

/-- A round in front of the end of the shorter buffer is the same in the longer one. -/
theorem Round.grow {asResponse : Bool} {off start stop : Nat} {out : List HttpMessage}
    {q : HttpMessage} (h : Round d asResponse off out start q stop) (e : Bytes) :
    ∃ q' stop', Round (d ++ e) asResponse off out start q' stop' ∧ Grown q q' ∧
      (stop < d.length → q' = q ∧ stop' = stop) := by
  have hforward := h.parsed.forward
  have hhigh := h.parsed.high
  obtain ⟨q', stop', hparse, hgrown, heq⟩ := parseOne_grow h.parse e
  have hskip := @skipBlank_append d _ off start h.skip (by omega) e ((d ++ e).length + 1)
    (by omega)
  obtain ⟨r, hparse', hr⟩ := parseOne_total (d ++ e) start asResponse
  rw [hparse] at hparse'
  exact ⟨q', stop', ⟨h.room, hskip, h.low, hparse, hr q' stop' (Option.some.inj hparse').symm⟩,
    hgrown, heq⟩

theorem httpParseLoop_grow {asResponse : Bool} {fuel off : Nat} (hoff : off ≤ d.length)
    (hfuel : d.length < fuel + off) {out ms : List HttpMessage} {last : HttpMessage}
    (h : httpParseLoop d asResponse fuel off out = some (out ++ (ms ++ [last]))) {e : Bytes}
    {fuel' : Nat} (hfuel' : (d ++ e).length < fuel' + off) :
    ∃ last' more, httpParseLoop (d ++ e) asResponse fuel' off out =
        some (out ++ (ms ++ last' :: more)) ∧ Grown last last' := by
  induction fuel generalizing off out ms fuel' with
  | zero => omega
  | succ fuel ih =>
    have hle : d.length ≤ (d ++ e).length := by
      rw [List.length_append]
      omega
    obtain ⟨fuel', rfl⟩ := Nat.exists_eq_succ_of_ne_zero (show fuel' ≠ 0 by omega)
    rcases httpParseLoop_cases hoff fuel out with hnone | ⟨start, q, stop, hround⟩
    · rw [hnone] at h
      have hlen := congrArg List.length (Option.some.inj h)
      simp only [List.length_append, List.length_cons] at hlen
      omega
    obtain ⟨q', stop', hround', hgrown, hsame⟩ := hround.grow e
    have hlow := hround.low
    have hforward := hround.parsed.forward
    have hforward' := hround'.parsed.forward
    rw [hround.loop] at h
    rw [hround'.loop]
    cases ms with
    | nil =>
      -- the last message of the shorter buffer is the first one of this run
      obtain ⟨more', hmore', -⟩ := httpParseLoop_total hround'.parsed.high
        (show (d ++ e).length < fuel' + stop' by omega) (out ++ [q'])
      obtain rfl := httpParseLoop_first hround.parsed.high (by omega) h
      exact ⟨q', more', by rw [hmore', List.append_assoc]; rfl, hgrown⟩
    | cons m ms =>
      have hstop : stop < d.length := by
        by_contra hend
        have hstop : stop = d.length := Nat.le_antisymm hround.parsed.high (Nat.le_of_not_lt hend)
        obtain ⟨fuel, rfl⟩ := Nat.exists_eq_succ_of_ne_zero (show fuel ≠ 0 by omega)
        rw [hstop, httpParseLoop_end] at h
        have hlen := congrArg List.length (Option.some.inj h)
        simp only [List.length_append, List.length_cons, List.length_nil] at hlen
        omega
      obtain ⟨rfl, rfl⟩ := hsame hstop
      obtain rfl := httpParseLoop_first hround.parsed.high (by omega) h
      rw [List.cons_append, List.append_cons out m (ms ++ [last])] at h
      obtain ⟨last', more', hrun, hlast⟩ := ih hround.parsed.high (by omega) h
        (show (d ++ e).length < fuel' + stop' by omega)
      refine ⟨last', more', ?_, hlast⟩
      rw [hrun, List.cons_append, List.append_cons out m (ms ++ last' :: more')]

/-- Where a capture goes on, every message that was shown is shown again, and only the last one may
have more of a body. -/
theorem httpParse_grow {d b : Bytes} (hb : d <+: b) {asResponse : Bool} {ms : List HttpMessage}
    {last : HttpMessage} (h : httpParse d asResponse = some (ms ++ [last])) :
    ∃ last' more, httpParse b asResponse = some (ms ++ last' :: more) ∧ Grown last last' := by
  obtain ⟨e, rfl⟩ := hb
  unfold httpParse at h ⊢
  by_cases hnil : d = []
  · rw [if_pos hnil] at h
    have hlen := congrArg List.length (Option.some.inj h)
    simp at hlen
  rw [if_neg hnil] at h
  rw [if_neg (by simp [hnil])]
  exact @httpParseLoop_grow d asResponse _ 0 (Nat.zero_le _) (by omega) [] ms last h e _ (by omega)

def getMessage : HttpMessage :=
  { HttpMessage.empty with
    isRequest := true, valid := true, method := text "GET", target := text "/"
    version := text "HTTP/1.1", consumed := 18 }

def putMessage : HttpMessage :=
  { HttpMessage.empty with
    isRequest := true, valid := true, method := text "PUT", target := text "/a"
    version := text "HTTP/1.1", headers := [⟨text "Content-Length", text "4"⟩]
    body := text "ab", bodyTruncated := true, bodyBytes := 2, consumed := 58 }

def getPut : Bytes :=
  text "GET / HTTP/1.1\r\n\r\nPUT /a HTTP/1.1\r\nContent-Length: 4\r\n\r\nab"

/-- Half of a body, and then all of it. -/
theorem httpParse_grow_put :
    ∃ last' more, httpParse (getPut ++ text "cd") false = some ([getMessage] ++ last' :: more) ∧
      Grown putMessage last' :=
  httpParse_grow (List.prefix_append ..) (by decide +kernel)

end NetDebugger.Http
