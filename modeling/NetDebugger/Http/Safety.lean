import NetDebugger.Http.RoundTrip
import NetDebugger.Http.Total
import NetDebugger.Lib.Checked

/-! The parser in the words of the machine: a `size_t` of 64 bits that must not wrap, reads at checked
indices, and lengths that must lie in the buffer where they are handed to `AppendCapped`.  It does what
the parser does. -/

namespace NetDebugger.Http

open Lib

/-- The buffer leaves room for a chunk size behind it. A vector is shorter than half of the words. -/
def FitsMemory (d : Bytes) : Prop := d.length + 2 ^ 32 ≤ 2 ^ 64

/-! ### The parser with checks -/

def findCRLF64 (d : Bytes) (off : Nat) : Option Nat := checkedFind 64 crlf d (d.length + 1) off

def findDoubleCRLF64 (d : Bytes) (off : Nat) : Option Nat :=
  checkedFind 64 (crlf ++ crlf) d (d.length + 1) off

def looksLikeStartLine64 (d : Bytes) (off : Nat) (asResponse : Bool) : Option Bool :=
  if off ≥ d.length then some false
  else if asResponse then do
    if (← checkedAdd 64 off 5) ≤ d.length then (slice d off 5).map (· = text "HTTP/")
    else some false
  else d[off]?.map isalpha

def appendCapped64 (d : Bytes) (off len : Nat) (body : Bytes) (truncated : Bool) :
    Option (Bytes × Bool) := do
  if (← checkedAdd 64 off len) > d.length then none
  else if body.length ≥ kMaxBody then some (body, true)
  else do
    let room ← checkedSub kMaxBody body.length
    let take := min len room
    (slice d off take).map fun bs => (body ++ bs, truncated || decide (take < len))

def chunkLoop64 (d : Bytes) : Nat → Nat → Bytes → Bool → Option (Nat × Bytes × Bool)
  | 0, _, _, _ => none
  | fuel + 1, p, body, truncated => do
    let le ← findCRLF64 d p
    if le = sizeMax then some (d.length, body, true)
    else do
      let sizeLine ← slice d p (← checkedSub le p)
      let chunk := chunkSize sizeLine
      let p ← checkedAdd 64 le 2
      if chunk = 0 then do
        let stop ← findCRLF64 d p
        if stop = sizeMax then some (d.length, body, truncated)
        else do some (← checkedAdd 64 stop 2, body, truncated)
      else do
        if (← checkedAdd 64 p chunk) > d.length then do
          let (body, truncated) ←
            appendCapped64 d p (← checkedSub d.length p) body truncated
          some (d.length, body, truncated)
        else do
          let (body, truncated) ← appendCapped64 d p chunk body truncated
          let p ← checkedAdd 64 p chunk
          let next ← checkedAdd 64 p 2
          if next ≤ d.length then do
            let separated ← matchAt d crlf p
            chunkLoop64 d fuel (if separated then next else p) body truncated
          else chunkLoop64 d fuel p body truncated

def parseBody64 (d : Bytes) (bodyStart : Nat) (asResponse : Bool) (m : HttpMessage) :
    Option (HttpMessage × Nat) :=
  if m.chunked then do
    let (off, body, truncated) ← chunkLoop64 d (d.length + 1) bodyStart m.body m.bodyTruncated
    some ({ m with body, bodyTruncated := truncated, bodyBytes := body.length }, off)
  else
    match httpFindHeader m.headers (text "Content-Length") with
    | some cl => do
      let len := strtoul 10 cl.value
      let avail ← checkedSub d.length bodyStart
      let take := min len avail
      let (body, truncated) ← appendCapped64 d bodyStart take m.body m.bodyTruncated
      let off ← checkedAdd 64 bodyStart take
      some ({ m with
        body
        bodyTruncated := truncated || decide (take < len)
        bodyBytes := take }, off)
    | none =>
      if asResponse then do
        let rest ← checkedSub d.length bodyStart
        let (body, truncated) ← appendCapped64 d bodyStart rest m.body m.bodyTruncated
        some ({ m with body, bodyTruncated := truncated, bodyBytes := rest }, d.length)
      else some ({ m with bodyBytes := 0 }, bodyStart)

def parseOne64 (d : Bytes) (off : Nat) (asResponse : Bool) :
    Option (Option (HttpMessage × Nat)) := do
  if !(← looksLikeStartLine64 d off asResponse) then some none
  else do
    let hdrEnd ← findDoubleCRLF64 d off
    if hdrEnd = sizeMax then some none
    else do
      let head ← slice d off (← checkedSub hdrEnd off)
      let (startLine, rest) := cutLine head
      let m := { HttpMessage.empty with isRequest := !asResponse }
      match parseStartLine asResponse startLine m with
      | none => some none
      | some m => do
        let m ← parseHeaders (head.length + 1) rest m
        let bodyStart ← checkedAdd 64 hdrEnd 4
        let (m, stop) ← parseBody64 d bodyStart asResponse m
        some (some ({ m with valid := true, consumed := stop }, stop))

def httpParseLoop64 (d : Bytes) (asResponse : Bool) :
    Nat → Nat → List HttpMessage → Option (List HttpMessage)
  | 0, _, _ => none
  | fuel + 1, off, out =>
    if off < d.length ∧ out.length < kMaxMessages then do
      let start ← skipBlank d (d.length + 1) off
      if start ≥ d.length then some out
      else
        match ← parseOne64 d start asResponse with
        | none => some out
        | some (m, stop) =>
          if stop ≤ start then some (out ++ [m])
          else httpParseLoop64 d asResponse fuel stop (out ++ [m])
    else some out

/-- `HttpParse` with checks. -/
def httpParse64 (buf : Bytes) (asResponse : Bool) : Option (List HttpMessage) :=
  if buf = [] then some [] else httpParseLoop64 buf asResponse (buf.length + 1) 0 []

/-! ### It does what the parser does -/

variable {d : Bytes}

theorem FitsMemory.lt (h : FitsMemory d) {n : Nat} (hn : n < 2 ^ 32) : d.length + n < 2 ^ 64 := by
  unfold FitsMemory at h
  omega

theorem strtoul_lt (base : Nat) (s : Bytes) : strtoul base s < 2 ^ 32 := by
  unfold strtoul
  simp only
  split_ifs <;> omega

theorem findCRLF64_eq (h : FitsMemory d) {off : Nat} (hoff : off ≤ d.length) :
    findCRLF64 d off = some ((findLine d off).getD sizeMax) := by
  have hfind := findCRLF_eq d off
  unfold findCRLF at hfind
  unfold findCRLF64
  rw [checkedFind_eq (by decide) (h.lt (by decide)) hoff, hfind]
  rfl

theorem findLine_sizeMax (h : FitsMemory d) {off le : Nat} (hline : findLine d off = some le) :
    le ≠ sizeMax := by
  have hbounds := findLine_bounds hline
  have hroom := h.lt (show 0 < 2 ^ 32 by decide)
  unfold sizeMax
  omega

theorem looksLikeStartLine64_eq (h : FitsMemory d) (off : Nat) (asResponse : Bool) :
    looksLikeStartLine64 d off asResponse = looksLikeStartLine d off asResponse := by
  unfold looksLikeStartLine64 looksLikeStartLine
  by_cases hoff : off ≥ d.length
  · rw [if_pos hoff, if_pos hoff]
  have hroom := h.lt (show 5 < 2 ^ 32 by decide)
  rw [if_neg hoff, if_neg hoff, checkedAdd_of_lt (by omega)]
  rfl

/-- The length is in the buffer, so the call is allowed. -/
theorem appendCapped64_eq (h : FitsMemory d) {off len : Nat} (hin : off + len ≤ d.length)
    (body : Bytes) (truncated : Bool) :
    appendCapped64 d off len body truncated = appendCapped d off len body truncated := by
  have hroom := h.lt (show 0 < 2 ^ 32 by decide)
  unfold appendCapped64 appendCapped
  rw [checkedAdd_of_lt (by omega), Option.bind_eq_bind, Option.bind_some, if_neg (by omega)]
  by_cases hfull : body.length ≥ kMaxBody
  · rw [if_pos hfull, if_pos hfull]
  · rw [if_neg hfull, if_neg hfull, checkedSub_of_le (by omega)]
    rfl

/-- No index of the loop over the chunks wraps. -/
theorem chunkLoop64_eq (h : FitsMemory d) {fuel p : Nat} (hp : p ≤ d.length) (body : Bytes)
    (truncated : Bool) :
    chunkLoop64 d fuel p body truncated = chunkLoop d fuel p body truncated := by
  have hroom := h.lt (show 4 < 2 ^ 32 by decide)
  induction fuel generalizing p body truncated with
  | zero => rfl
  | succ fuel ih =>
    unfold chunkLoop64 chunkLoop
    simp only [findCRLF64_eq h hp, findCRLF_eq, Option.bind_eq_bind, Option.bind_some]
    cases hline : findLine d p with
    | none => exact if_pos rfl
    | some le =>
      obtain ⟨hlow, hhigh⟩ := findLine_bounds hline
      simp only [Option.getD_some, if_neg (findLine_sizeMax h hline), checkedSub_of_le hlow,
        slice_line hline, Option.bind_some, checkedAdd_of_lt (show le + 2 < 2 ^ 64 by omega),
        findCRLF64_eq h hhigh]
      by_cases hsize : chunkSize (lineAt d p le) = 0
      · rw [if_pos hsize, if_pos hsize]
        cases hnext : findLine d (le + 2) with
        | none => exact if_pos rfl
        | some stop =>
          have hstop := (findLine_bounds hnext).2
          simp only [Option.getD_some, if_neg (findLine_sizeMax h hnext),
            checkedAdd_of_lt (show stop + 2 < 2 ^ 64 by omega), Option.bind_some]
      have hsmall : le + 2 + chunkSize (lineAt d p le) < 2 ^ 64 := by
        have hlt := h.lt (strtoul_lt 16 (trim (((cut [0x3B] (lineAt d p le)).map Prod.fst).getD
          (lineAt d p le))))
        unfold chunkSize
        omega
      rw [if_neg hsize, if_neg hsize]
      simp only [checkedAdd_of_lt hsmall, Option.bind_some]
      by_cases hcut : le + 2 + chunkSize (lineAt d p le) > d.length
      · rw [if_pos hcut, if_pos hcut, checkedSub_of_le hhigh]
        simp only [Option.bind_some]
        rw [appendCapped64_eq h (by omega)]
      · have hfit := Nat.le_of_not_lt hcut
        obtain ⟨t', happend⟩ := appendCapped_eq hfit body truncated
        rw [if_neg hcut, if_neg hcut, appendCapped64_eq h hfit, happend]
        simp only [Option.bind_some, checkedAdd_of_lt
          (show le + 2 + chunkSize (lineAt d p le) + 2 < 2 ^ 64 by omega)]
        by_cases hnext : le + 2 + chunkSize (lineAt d p le) + 2 ≤ d.length
        · have hmatch : matchAt d crlf (le + 2 + chunkSize (lineAt d p le)) = _ := matchAt_eq hnext
          rw [if_pos hnext, if_pos hnext, hmatch]
          simp only [Option.bind_some]
          split <;> exact ih (by omega) ..
        · rw [if_neg hnext, if_neg hnext, ih hfit]

theorem parseBody64_eq (h : FitsMemory d) {bodyStart : Nat} (hstart : bodyStart ≤ d.length)
    (asResponse : Bool) (m : HttpMessage) :
    parseBody64 d bodyStart asResponse m = parseBody d bodyStart asResponse m := by
  have hroom := h.lt (show 0 < 2 ^ 32 by decide)
  unfold parseBody64 parseBody
  rw [chunkLoop64_eq h hstart]
  by_cases hchunked : m.chunked = true
  · rw [if_pos hchunked, if_pos hchunked]
  rw [if_neg hchunked, if_neg hchunked]
  cases httpFindHeader m.headers (text "Content-Length") with
  | some cl =>
    have hin : bodyStart + min (strtoul 10 cl.value) (d.length - bodyStart) ≤ d.length := by omega
    simp only [checkedSub_of_le hstart, Option.bind_eq_bind, Option.bind_some,
      appendCapped64_eq h hin, checkedAdd_of_lt
        (show bodyStart + min (strtoul 10 cl.value) (d.length - bodyStart) < 2 ^ 64 by omega)]
  | none =>
    cases asResponse with
    | true =>
      have hin : bodyStart + (d.length - bodyStart) ≤ d.length := by omega
      simp only [checkedSub_of_le hstart, Option.bind_eq_bind, Option.bind_some, if_true,
        appendCapped64_eq h hin]
    | false => rfl

theorem parseOne64_eq (h : FitsMemory d) (off : Nat) (asResponse : Bool) :
    parseOne64 d off asResponse = parseOne d off asResponse := by
  have hroom := h.lt (show 4 < 2 ^ 32 by decide)
  unfold parseOne64 parseOne
  rw [looksLikeStartLine64_eq h]
  by_cases hoff : off ≥ d.length
  · have hend : looksLikeStartLine d off asResponse = some false := if_pos hoff
    rw [hend]
    rfl
  obtain ⟨looks, hlooks⟩ := looksLikeStartLine_total d off asResponse
  rw [hlooks]
  cases looks with
  | false => rfl
  | true =>
    have hblank : findDoubleCRLF64 d off =
        some (((indexOf (crlf ++ crlf) (d.drop off)).map (· + off)).getD sizeMax) := by
      have hfind := findDoubleCRLF_eq d off
      unfold findDoubleCRLF at hfind
      unfold findDoubleCRLF64
      rw [checkedFind_eq (by decide) (h.lt (by decide)) (by omega), hfind]
      rfl
    simp only [hblank, findDoubleCRLF_eq, Option.bind_eq_bind, Option.bind_some, Bool.not_true,
      Bool.false_eq_true, if_false]
    cases hfind : (indexOf (crlf ++ crlf) (d.drop off)).map (· + off) with
    | none => exact if_pos rfl
    | some hdrEnd =>
      obtain ⟨hlow, hhigh⟩ := find_bounds hfind
      have hfour : hdrEnd + 4 ≤ d.length := hhigh
      have hreal : hdrEnd ≠ sizeMax := by
        unfold sizeMax
        omega
      have hhead := @slice_of_le _ d off (hdrEnd - off) (by omega)
      simp only [Option.getD_some, if_neg hreal, checkedSub_of_le hlow, Option.bind_some, hhead]
      cases parseStartLine asResponse (cutLine ((d.drop off).take (hdrEnd - off))).1
        { HttpMessage.empty with isRequest := !asResponse } with
      | none => rfl
      | some m =>
        simp only [checkedAdd_of_lt (show hdrEnd + 4 < 2 ^ 64 by omega), Option.bind_some,
          parseBody64_eq h hfour]

theorem httpParseLoop64_eq (h : FitsMemory d) (asResponse : Bool) (fuel : Nat) {off : Nat}
    (hoff : off ≤ d.length) (out : List HttpMessage) :
    httpParseLoop64 d asResponse fuel off out = httpParseLoop d asResponse fuel off out := by
  induction fuel generalizing off out with
  | zero => rfl
  | succ fuel ih =>
    unfold httpParseLoop64 httpParseLoop
    obtain ⟨start, hskip, -, hhigh⟩ := @skipBlank_total d (d.length + 1) off hoff (by omega)
    obtain ⟨r, hparse, hr⟩ := parseOne_total d start asResponse
    simp only [hskip, Option.bind_eq_bind, Option.bind_some, parseOne64_eq h, hparse]
    cases r with
    | none => rfl
    | some r => simp only [ih (hr r.1 r.2 rfl).high]

/-- The checks change nothing. -/
theorem httpParse64_eq (h : FitsMemory d) (asResponse : Bool) :
    httpParse64 d asResponse = httpParse d asResponse := by
  unfold httpParse64 httpParse
  rw [httpParseLoop64_eq h asResponse _ (Nat.zero_le _)]

/-! ### What is returned -/

/-- The messages that are read from an offset on end one behind the other, in the buffer. -/
structure Safe (d : Bytes) (off room : Nat) (ps : List HttpMessage) : Prop where
  many : ps.length ≤ room
  increasing : ps.Pairwise fun p q => p.consumed < q.consumed
  ends : ∀ p ∈ ps, off < p.consumed ∧ p.consumed ≤ d.length
  capped : ∀ p ∈ ps, p.body.length ≤ kMaxBody

theorem httpParseLoop_safe {asResponse : Bool} {fuel off : Nat} (hoff : off ≤ d.length)
    (hfuel : d.length < fuel + off) (out : List HttpMessage) :
    ∃ ps, httpParseLoop d asResponse fuel off out = some (out ++ ps) ∧
      Safe d off (kMaxMessages - out.length) ps := by
  induction fuel generalizing off out with
  | zero => omega
  | succ fuel ih =>
    rcases httpParseLoop_cases hoff fuel out with hnone | ⟨start, q, stop, hround⟩
    · refine ⟨[], by rw [hnone, List.append_nil], ?_⟩
      exact ⟨Nat.zero_le _, .nil, by simp, by simp⟩
    have hlow := hround.low
    have hroom := hround.room
    have hforward := hround.parsed.forward
    have hconsumed := hround.parsed.consumed
    have hhigh := hround.parsed.high
    have hlen : (out ++ [q]).length = out.length + 1 := List.length_append
    obtain ⟨ps, hloop, hsafe⟩ := ih hhigh (by omega) (out ++ [q])
    have hmany := hsafe.many
    refine ⟨q :: ps, ?_, ?_⟩
    · rw [hround.loop, hloop, List.append_assoc, List.singleton_append]
    constructor
    case many =>
      rw [List.length_cons]
      omega
    case increasing =>
      refine List.pairwise_cons.mpr ⟨fun p hp => ?_, hsafe.increasing⟩
      rw [hconsumed]
      exact (hsafe.ends p hp).1
    case ends =>
      refine List.forall_mem_cons.mpr ⟨by omega, fun p hp => ?_⟩
      have hends := hsafe.ends p hp
      omega
    case capped => exact List.forall_mem_cons.mpr ⟨hround.parsed.capped, hsafe.capped⟩

/-- `HttpParse` ends on every buffer: no index wraps, no read and no piece of a body lies outside of the
buffer. Every message is read forward, and what is returned keeps to the limits. -/
theorem httpParse_safe (h : FitsMemory d) (asResponse : Bool) :
    (∃ ps, httpParse64 d asResponse = some ps ∧ httpParse d asResponse = some ps ∧
      Safe d 0 kMaxMessages ps) ∧
    ∀ off, ∃ r, parseOne64 d off asResponse = some r ∧ parseOne d off asResponse = some r ∧
      ∀ m stop, r = some (m, stop) → off < stop ∧ stop ≤ d.length ∧ m.consumed = stop := by
  constructor
  · rw [httpParse64_eq h]
    unfold httpParse
    by_cases hnil : d = []
    · exact ⟨[], if_pos hnil, if_pos hnil, Nat.zero_le _, .nil, by simp, by simp⟩
    · obtain ⟨ps, hloop, hsafe⟩ :=
        @httpParseLoop_safe d asResponse (d.length + 1) 0 (Nat.zero_le _) (by omega) []
      rw [if_neg hnil, hloop]
      exact ⟨ps, rfl, rfl, hsafe⟩
  · intro off
    obtain ⟨r, hparse, hr⟩ := parseOne_total d off asResponse
    refine ⟨r, by rw [parseOne64_eq h, hparse], hparse, fun m stop hm => ?_⟩
    have hparsed := hr m stop hm
    exact ⟨hparsed.forward, hparsed.high, hparsed.consumed⟩

/-- A response in chunks. -/
theorem httpParse_safe_abc :
    (∃ ps, httpParse64 (chunkedResponse [abcChunk]).bytes true = some ps ∧
      httpParse (chunkedResponse [abcChunk]).bytes true = some ps ∧
      Safe (chunkedResponse [abcChunk]).bytes 0 kMaxMessages ps) ∧
    ∀ off, ∃ r, parseOne64 (chunkedResponse [abcChunk]).bytes off true = some r ∧
      parseOne (chunkedResponse [abcChunk]).bytes off true = some r ∧
      ∀ m stop, r = some (m, stop) →
        off < stop ∧ stop ≤ (chunkedResponse [abcChunk]).bytes.length ∧ m.consumed = stop := by
  apply httpParse_safe
  unfold FitsMemory
  decide

end NetDebugger.Http
