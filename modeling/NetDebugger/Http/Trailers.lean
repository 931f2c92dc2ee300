import NetDebugger.Http.Bodyless

/-! Chunked messages with trailer fields.  Behind the last chunk the parser passes over one line, and
the loop of `HttpParse` skips a blank one: from the second trailer on, the lines are read as the next
message. -/

namespace NetDebugger.Http

open Lib

/-- The trailer fields and the blank line that ends them. -/
def trailerBytes (fs : List Field) : Bytes := fs.flatMap (fun f => f.line ++ crlf) ++ crlf

/-- The content in bytes, with trailer fields behind its last chunk. -/
def Content.trailed : Content → List Field → Bytes
  | chunked _ chunks last, fs =>
    chunks.flatMap Chunk.bytes ++ (last.line ++ (crlf ++ trailerBytes fs))
  | c, _ => c.payload

structure Trailed where
  message : Message
  trailers : List Field
deriving DecidableEq

/-- The parser takes the line for the start of a message. -/
def startsMessage (asResponse : Bool) (line : Bytes) : Bool :=
  looksLikeStartLine line 0 asResponse = some true &&
    (parseStartLine asResponse line HttpMessage.empty).isSome

namespace Trailed

def bytes (t : Trailed) : Bytes :=
  t.message.block.bytes ++ t.message.content.trailed t.trailers

/-- Only a chunked message has trailer fields. -/
structure Ok (t : Trailed) (asResponse : Bool) : Prop where
  message : t.message.Ok asResponse
  trailers : ∀ f ∈ t.trailers, f.Ok
  chunked : t.trailers = [] ∨ ∃ field chunks last, t.message.content = .chunked field chunks last

/-- The parsed message is the one that was sent, with all of its body. -/
structure Shown (t : Trailed) (p : HttpMessage) : Prop where
  valid : p.valid = true
  start : t.message.start.Shown p
  headers : p.headers = t.message.block.headers
  body : p.body = t.message.body

/-- Of a message in front of another one, the parser leaves the blank line at most. -/
inductive Returned : Nat → List Trailed → List HttpMessage → Prop
  | nil {off : Nat} : Returned off [] []
  | cons {off : Nat} {t : Trailed} {p : HttpMessage} {ts : List Trailed} {ps : List HttpMessage}
      (shown : t.Shown p) (ends : p.consumed ≤ off + t.bytes.length)
      (passed : ts = [] ∨ off + t.bytes.length ≤ p.consumed + 2)
      (rest : Returned (off + t.bytes.length) ts ps) : Returned off (t :: ts) (p :: ps)

/-- What the parser leaves of the message. -/
def left (t : Trailed) : Bytes :=
  match t.trailers with
  | [] => []
  | _ :: fs => trailerBytes fs

end Trailed

/-- Every body keeps to the cap, a message in front of another one has one trailer field at most, and
the second trailer of the last one starts no message, unless there is no room for one. -/
structure Passed (asResponse : Bool) (room : Nat) (ts : List Trailed) : Prop where
  small : ∀ t ∈ ts, t.message.body.length ≤ kMaxBody
  inner : ∀ t ∈ ts.dropLast, t.trailers.length ≤ 1
  last : ∀ t ∈ ts.getLast?,
    ts.length = room ∨ ∀ f ∈ t.trailers[1]?, startsMessage asResponse f.line = false

/-! ### A trailer as a start line -/

theorem Field.Ok.not_response {f : Field} (h : f.Ok) (t : Bytes) :
    ¬text "HTTP/" <+: f.line ++ t := by
  intro hpre
  rw [Field.line, List.append_assoc, List.cons_append] at hpre
  have hname := prefix_of_not_mem hpre (by decide)
  have hslash : isToken 0x2F = true := h.name.2 _ (hname.subset (by decide))
  exact absurd hslash (by decide)

/-- The first byte of a trailer decides whether it looks like a start line. -/
theorem looksLikeStartLine_field {f : Field} (h : f.Ok) (asResponse : Bool) (pre t : Bytes) :
    looksLikeStartLine (pre ++ (f.line ++ t)) pre.length asResponse =
      some (!asResponse && f.name.head?.any isalpha) := by
  have hpos : 0 < f.line.length := List.length_pos_of_ne_nil h.line.nonempty
  unfold looksLikeStartLine
  rw [if_neg (by simp only [List.length_append]; omega)]
  cases asResponse with
  | true =>
    rw [if_pos rfl]
    by_cases hroom : pre.length + 5 ≤ (pre ++ (f.line ++ t)).length
    · rw [if_pos hroom, slice_of_le hroom, List.drop_left, Option.map_some, Bool.not_true,
        Bool.false_and, decide_eq_false]
      intro htake
      exact h.not_response t (htake ▸ List.take_prefix ..)
    · rw [if_neg hroom]
      rfl
  | false =>
    obtain ⟨c, name, hname⟩ := List.exists_cons_of_ne_nil h.name.1
    rw [if_neg (by decide), getElem?_mid_zero, Field.line, hname]
    rfl

theorem parseStartLine_isSome (asResponse : Bool) (line : Bytes) (m m' : HttpMessage) :
    (parseStartLine asResponse line m).isSome = (parseStartLine asResponse line m').isSome := by
  cases asResponse with
  | true =>
    simp only [parseStartLine, parseStatusLine, if_true, Option.bind_eq_bind]
    cases cut [0x20] line with
    | none => rfl
    | some vr =>
      simp only [Option.bind_some]
      split_ifs <;> rfl
  | false =>
    simp only [parseStartLine, parseRequestLine, Bool.false_eq_true, if_false, Option.bind_eq_bind]
    cases cut [0x20] line with
    | none => rfl
    | some mr =>
      simp only [Option.bind_some]
      cases cut [0x20] mr.2 with
      | none => rfl
      | some tv =>
        simp only [Option.bind_some]
        split_ifs <;> rfl

theorem cut_eq_append {c : UInt8} {s a b : Bytes} (h : cut [c] s = some (a, b)) :
    s = a ++ c :: b := by
  obtain ⟨i, hi, hab⟩ := Option.map_eq_some_iff.mp h
  obtain ⟨rfl, rfl⟩ := Prod.mk.inj hab
  have hmatch := indexOf_matches hi
  obtain ⟨t, ht⟩ := hmatch
  rw [← List.drop_drop, ← ht]
  conv => lhs; rw [← List.take_append_drop i s, ← ht]
  rfl

/-- A request that is read from a trailer has a method that no request has. -/
theorem method_of_field {f : Field} (h : f.Ok) {m p : HttpMessage}
    (hparse : parseRequestLine f.line m = some p) : 0x3A ∈ p.method := by
  simp only [parseRequestLine, Option.bind_eq_bind, Option.bind_eq_some_iff] at hparse
  obtain ⟨⟨method, rest⟩, hcut, ⟨target, version⟩, -, hstored⟩ := hparse
  split_ifs at hstored
  obtain rfl := Option.some.inj hstored
  have hline := cut_eq_append hcut
  have hpre : f.name ++ [0x3A] <+: method ++ 0x20 :: rest := by
    rw [← hline, Field.line]
    exact ⟨_, by rw [List.append_assoc]; rfl⟩
  have hspace : (0x20 : UInt8) ∉ f.name ++ [0x3A] := by
    intro hmem
    rcases List.mem_append.mp hmem with hmem | hmem
    · exact absurd (isToken_visible (h.name.2 _ hmem)).1 (by decide)
    · cases List.mem_singleton.mp hmem
  exact (prefix_of_not_mem hpre hspace).subset (by simp)

/-! ### What the parser makes of the message and of what it leaves -/

theorem trailerBytes_cons (f : Field) (fs : List Field) :
    trailerBytes (f :: fs) = f.line ++ (crlf ++ trailerBytes fs) := by
  simp only [trailerBytes, List.flatMap_cons, List.append_assoc]

/-- Trailer lines look like a head. -/
theorem trailerBytes_lines (f : Field) (fs : List Field) :
    trailerBytes (f :: fs) = joinLines (f.line :: fs.map Field.line) ++ (crlf ++ crlf) := by
  induction fs generalizing f with
  | nil => simp [trailerBytes, joinLines]
  | cons g fs ih =>
    rw [trailerBytes_cons, ih, List.map_cons, joinLines_cons_cons, List.append_assoc,
      List.append_assoc]

/-- Without trailers the message is as it was. -/
theorem Content.Ok.trailed_nil {c : Content} (h : c.Ok) : c.trailed [] = c.payload := by
  cases h with
  | absent => rfl
  | sized => rfl
  | @chunked field chunks last _ _ _ _ _ last_empty =>
    have hend := chunksBytes_eq chunks last_empty []
    rw [List.append_nil] at hend
    exact hend.symm

/-- The parser stores a message, and stops in front of its second trailer. -/
theorem parseBody_trailed {t : Trailed} {asResponse : Bool} (h : t.Ok asResponse)
    (hsmall : t.message.body.length ≤ kMaxBody) (pre rest : Bytes) :
    ∃ q front, t.bytes = front ++ t.left ∧
      parseBody (pre ++ (t.bytes ++ rest)) (pre.length + t.message.block.bytes.length) asResponse
        t.message.block.message = some (q, (pre ++ front).length) ∧
      t.Shown (q.done (pre ++ front).length) := by
  have hsizes := Message.chunks32_of_small hsmall
  have hstored := h.message.block.stored
  cases htrailers : t.trailers with
  | nil =>
    obtain ⟨q, hbody, hshown⟩ := parseBody_sent h.message hsizes pre rest
    have hbytes : t.bytes = t.message.bytes := by
      rw [Trailed.bytes, htrailers, h.message.content.trailed_nil]
      rfl
    refine ⟨q, t.message.bytes, ?_, ?_, hshown.valid, hshown.start, hshown.headers, ?_⟩
    · rw [hbytes, Trailed.left, htrailers, List.append_nil]
    · rw [hbytes, Message.bytes, List.append_assoc]
      exact hbody
    · exact hshown.body.trans (List.take_of_length_le hsmall)
  | cons f fs =>
    obtain ⟨field, chunks, last, hcontent⟩ := h.chunked.resolve_left (by rw [htrailers]; simp)
    have hok := h.message.content
    have hchunked := h.message.isChunked
    have hline := (h.trailers f (by rw [htrailers]; exact List.mem_cons_self ..)).line
    unfold Message.Chunks32 at hsizes
    rw [hcontent] at hok hchunked hsizes
    obtain ⟨n, hbody⟩ := @Content.parseBody_chunked field chunks last hok asResponse hsizes _ hchunked
      hstored.body hstored.truncated f.line hline.inLine (pre ++ t.message.block.bytes)
      (trailerBytes fs ++ rest)
    have hbytes : t.bytes = t.message.block.bytes ++ (chunks.flatMap Chunk.bytes ++ (last.line ++
        (crlf ++ (f.line ++ (crlf ++ trailerBytes fs))))) := by
      rw [Trailed.bytes, hcontent, htrailers, Content.trailed, trailerBytes_cons]
    have hwhole : chunks.flatMap Chunk.data = t.message.body := by
      rw [Message.body, hcontent]
      rfl
    have hsplit : pre ++ t.message.block.bytes ++ (chunks.flatMap Chunk.bytes ++
        (last.line ++ (crlf ++ (f.line ++ (crlf ++ (trailerBytes fs ++ rest)))))) =
        pre ++ (t.bytes ++ rest) := by
      rw [hbytes]
      simp only [List.append_assoc]
    rw [hsplit, hwhole, @List.length_append _ pre t.message.block.bytes, List.append_assoc pre] at hbody
    refine ⟨_, _, ?_, hbody, rfl, hstored.start.done .., hstored.headers,
      List.take_of_length_le hsmall⟩
    rw [hbytes, Trailed.left, htrailers]
    simp only [List.append_assoc]

/-- A round of the loop at a message. -/
theorem httpParseLoop_trailed {t : Trailed} {asResponse : Bool} (h : t.Ok asResponse)
    (hsmall : t.message.body.length ≤ kMaxBody) (pre rest : Bytes) {out : List HttpMessage}
    (hroom : out.length < kMaxMessages) (fuel : Nat) :
    ∃ p front, t.bytes = front ++ t.left ∧ 0 < front.length ∧ t.Shown p ∧
      p.consumed = (pre ++ front).length ∧
      httpParseLoop (pre ++ (t.bytes ++ rest)) asResponse (fuel + 1) pre.length out =
        httpParseLoop (pre ++ (t.bytes ++ rest)) asResponse fuel (pre ++ front).length
          (out ++ [p]) := by
  obtain ⟨q, front, hfront, hbody, hshown⟩ := parseBody_trailed h hsmall pre rest
  obtain ⟨q', stop, hbody', hq, hround⟩ := httpParseLoop_block h.message.block pre
    (t.message.content.trailed t.trailers ++ rest) hroom fuel
  have hpos := h.message.block.bytes_pos
  have hlow := hq.low
  rw [← List.append_assoc t.message.block.bytes] at hbody' hround
  have heq := hbody.symm.trans hbody'
  obtain ⟨rfl, rfl⟩ := Prod.mk.inj (Option.some.inj heq)
  rw [List.length_append] at hlow
  exact ⟨_, front, hfront, by omega, hshown, rfl, hround⟩

theorem skipBlank_succ {d : Bytes} {fuel off start : Nat} (h : skipBlank d fuel off = some start) :
    skipBlank d (fuel + 1) off = some start := by
  induction fuel generalizing off with
  | zero => cases h
  | succ fuel ih =>
    by_cases hoff : off < d.length
    · rw [skipBlank_at hoff] at h ⊢
      by_cases hblank : d[off] = 0x0D ∨ d[off] = 0x0A
      · rw [if_pos hblank] at h ⊢
        exact ih h
      · rwa [if_neg hblank] at h ⊢
    · rwa [skipBlank_end hoff] at h ⊢

theorem skipBlank_crlf (pre rest : Bytes) (fuel : Nat) :
    skipBlank (pre ++ (crlf ++ rest)) (fuel + 2) pre.length =
      skipBlank (pre ++ (crlf ++ rest)) fuel (pre ++ crlf).length := by
  have hfirst : (pre ++ (crlf ++ rest))[pre.length]? = some 0x0D := getElem?_mid_zero ..
  have hsecond : (pre ++ (crlf ++ rest))[pre.length + 1]? = some 0x0A := by
    rw [List.getElem?_append_right (by omega), Nat.add_sub_cancel_left]
    rfl
  obtain ⟨hin, hfirst⟩ := List.getElem?_eq_some_iff.mp hfirst
  obtain ⟨hin', hsecond⟩ := List.getElem?_eq_some_iff.mp hsecond
  have hlen : (pre ++ crlf).length = pre.length + 1 + 1 := by
    rw [List.length_append]
    rfl
  rw [skipBlank_at hin, if_pos (Or.inl hfirst), skipBlank_at hin', if_pos (Or.inr hsecond), hlen]

/-- A blank line between messages is skipped. -/
theorem httpParseLoop_blank (asResponse : Bool) (pre rest : Bytes) (fuel : Nat)
    (out : List HttpMessage) :
    httpParseLoop (pre ++ (crlf ++ rest)) asResponse (fuel + 1) pre.length out =
      httpParseLoop (pre ++ (crlf ++ rest)) asResponse (fuel + 1) (pre ++ crlf).length out := by
  have hlen : (pre ++ (crlf ++ rest)).length = (pre ++ crlf).length + rest.length := by
    rw [← List.append_assoc, List.length_append]
  have htwo : (pre ++ crlf).length = pre.length + 2 := List.length_append
  obtain ⟨start, hskip, hlow, hhigh⟩ := @skipBlank_total (pre ++ (crlf ++ rest))
    ((pre ++ (crlf ++ rest)).length - 1) (pre ++ crlf).length (by omega) (by omega)
  have hskip' : skipBlank (pre ++ (crlf ++ rest)) ((pre ++ (crlf ++ rest)).length + 1) pre.length =
      some start := by
    rw [show (pre ++ (crlf ++ rest)).length + 1 = (pre ++ (crlf ++ rest)).length - 1 + 2 by omega,
      skipBlank_crlf]
    exact hskip
  have hskip'' := skipBlank_succ (skipBlank_succ hskip)
  rw [show (pre ++ (crlf ++ rest)).length - 1 + 1 + 1 = (pre ++ (crlf ++ rest)).length + 1 by omega]
    at hskip''
  unfold httpParseLoop
  rw [hskip', hskip'']
  by_cases hroom : out.length < kMaxMessages
  · rw [if_pos ⟨by omega, hroom⟩]
    by_cases hend : (pre ++ crlf).length < (pre ++ (crlf ++ rest)).length
    · rw [if_pos ⟨hend, hroom⟩]
    · rw [if_neg fun h => hend h.1, Option.bind_eq_bind, Option.bind_some, if_pos (by omega)]
  · rw [if_neg fun h => hroom h.2, if_neg fun h => hroom h.2]

/-- A trailer that is left is the next message, or ends the loop. -/
theorem httpParseLoop_trailer {f : Field} {fs : List Field} (hfs : ∀ g ∈ f :: fs, g.Ok)
    (asResponse : Bool) (pre rest : Bytes) {out : List HttpMessage}
    (hroom : out.length < kMaxMessages) {fuel : Nat}
    (hfuel : (pre ++ (trailerBytes (f :: fs) ++ rest)).length < fuel + pre.length) :
    (startsMessage asResponse f.line = false ∧
      httpParseLoop (pre ++ (trailerBytes (f :: fs) ++ rest)) asResponse fuel pre.length out =
        some out) ∨
    ∃ p more, startsMessage asResponse f.line = true ∧ asResponse = false ∧ 0x3A ∈ p.method ∧
      httpParseLoop (pre ++ (trailerBytes (f :: fs) ++ rest)) asResponse fuel pre.length out =
        some (out ++ p :: more) := by
  have hf := hfs f (List.mem_cons_self ..)
  have hlines : ∀ l ∈ fs.map Field.line, Line l := by
    intro l hl
    obtain ⟨g, hg, rfl⟩ := List.mem_map.mp hl
    exact (hfs g (List.mem_cons_of_mem _ hg)).line
  have hsplit : trailerBytes (f :: fs) ++ rest =
      joinLines (f.line :: fs.map Field.line) ++ (crlf ++ crlf ++ rest) := by
    rw [trailerBytes_lines, List.append_assoc]
  have hlooks : looksLikeStartLine (pre ++ (trailerBytes (f :: fs) ++ rest)) pre.length asResponse =
      some (!asResponse && f.name.head?.any isalpha) := by
    rw [trailerBytes_cons, List.append_assoc]
    exact looksLikeStartLine_field hf ..
  have halone : looksLikeStartLine f.line 0 asResponse =
      some (!asResponse && f.name.head?.any isalpha) := by
    have hfront := looksLikeStartLine_field hf asResponse [] []
    rwa [List.append_nil] at hfront
  obtain ⟨c, t, hhead, hc⟩ := joinLines_head hf.line (fs.map Field.line) (crlf ++ crlf ++ rest)
  have hstart : (pre ++ (trailerBytes (f :: fs) ++ rest))[pre.length]? = some c := by
    rw [getElem?_mid_zero, hsplit, hhead]
    rfl
  obtain ⟨hin, -⟩ := List.getElem?_eq_some_iff.mp hstart
  obtain ⟨fuel, rfl⟩ := Nat.exists_eq_succ_of_ne_zero (show fuel ≠ 0 by omega)
  rw [hsplit] at hlooks hstart hin hfuel ⊢
  have hparse := parseOne_lines hf.line hlines hlooks
  rw [httpParseLoop_start hstart hc hroom, hparse]
  unfold startsMessage
  rw [halone]
  cases hlooking : (!asResponse && f.name.head?.any isalpha) with
  | false => exact .inl ⟨rfl, rfl⟩
  | true =>
    obtain rfl : asResponse = false := by
      cases asResponse with
      | false => rfl
      | true => cases hlooking
    have hsome := parseStartLine_isSome false f.line HttpMessage.empty
      { HttpMessage.empty with isRequest := !false }
    cases hm : parseStartLine false f.line { HttpMessage.empty with isRequest := !false } with
    | none =>
      rw [hm] at hsome
      exact .inl ⟨by rw [hsome]; rfl, by rw [if_neg (by decide), Option.bind_some]⟩
    | some m =>
      rw [hm] at hsome
      have hmethod := method_of_field hf hm
      obtain ⟨ct, ce, hfields⟩ := foldl_addHeader (fun g hg => hfs g (List.mem_cons_of_mem _ hg)) m
      have hbounds : pre.length + ((joinLines (f.line :: fs.map Field.line)).length + 4) ≤
          (pre ++ (joinLines (f.line :: fs.map Field.line) ++ (crlf ++ crlf ++ rest))).length := by
        simp only [List.length_append, crlf, List.length_cons, List.length_nil]
        omega
      obtain ⟨q, stop, hbody, hq⟩ := parseBody_total hbounds false
        ((fs.map Field.line).foldl (fun m line => addHeader line m) m)
      obtain ⟨body, t, n, hhead⟩ := hq.head
      have hlow := hq.low
      obtain ⟨more, hmore, -⟩ := @httpParseLoop_total _ false fuel stop hq.high (by omega)
        (out ++ [q.done stop])
      refine .inr ⟨q.done stop, more, by rw [hsome]; rfl, rfl, ?_, ?_⟩
      · rw [hhead, hfields]
        exact hmethod
      · rw [if_neg (by decide)]
        simp only [hbody, Option.map_some, Option.bind_some]
        rw [if_neg (by omega)]
        exact hmore.trans (congrArg some (List.append_cons ..).symm)

/-- A message with one trailer at most is read, and the loop is behind it. -/
theorem httpParseLoop_passed {t : Trailed} {asResponse : Bool} (h : t.Ok asResponse)
    (hsmall : t.message.body.length ≤ kMaxBody) (hone : t.trailers.length ≤ 1) (pre rest : Bytes)
    {out : List HttpMessage} (hroom : out.length < kMaxMessages) (fuel : Nat) :
    ∃ p, t.Shown p ∧ p.consumed ≤ pre.length + t.bytes.length ∧
      pre.length + t.bytes.length ≤ p.consumed + 2 ∧
      httpParseLoop (pre ++ (t.bytes ++ rest)) asResponse (fuel + 2) pre.length out =
        httpParseLoop (pre ++ (t.bytes ++ rest)) asResponse (fuel + 1) (pre ++ t.bytes).length
          (out ++ [p]) := by
  obtain ⟨p, front, hfront, hpos, hshown, hends, hround⟩ :=
    httpParseLoop_trailed h hsmall pre rest hroom (fuel + 1)
  have hlen := congrArg List.length hfront
  rw [List.length_append] at hlen hends
  refine ⟨p, hshown, by omega, ?_, ?_⟩
  · have hleft : t.left.length ≤ 2 := by
      unfold Trailed.left
      match t.trailers, hone with
      | [], _ => exact Nat.zero_le _
      | [f], _ => exact Nat.le_refl _
    omega
  rw [hround]
  match htrailers : t.trailers, hone with
  | [], _ =>
    rw [Trailed.left, htrailers, List.append_nil] at hfront
    rw [hfront]
  | [f], _ =>
    rw [Trailed.left, htrailers] at hfront
    have hskip := httpParseLoop_blank asResponse (pre ++ front) rest fuel (out ++ [p])
    have hblank : t.bytes = front ++ crlf := hfront
    rw [hblank]
    simpa only [List.append_assoc] using hskip

/-- A message with more trailers is read, and the loop is in front of the second one. -/
theorem httpParseLoop_left {t : Trailed} {asResponse : Bool} (h : t.Ok asResponse)
    (hsmall : t.message.body.length ≤ kMaxBody) {f g : Field} {fs : List Field}
    (htrailers : t.trailers = f :: g :: fs) (pre rest : Bytes) {out : List HttpMessage}
    (hroom : out.length < kMaxMessages) {fuel : Nat}
    (hfuel : (pre ++ (t.bytes ++ rest)).length < fuel + 1 + pre.length) :
    ∃ p, t.Shown p ∧ p.consumed ≤ pre.length + t.bytes.length ∧
      ((out.length + 1 = kMaxMessages ∨ startsMessage asResponse g.line = false) ∧
        httpParseLoop (pre ++ (t.bytes ++ rest)) asResponse (fuel + 1) pre.length out =
          some (out ++ [p]) ∨
      ∃ q more, startsMessage asResponse g.line = true ∧ out.length + 1 < kMaxMessages ∧
        asResponse = false ∧ 0x3A ∈ q.method ∧
        httpParseLoop (pre ++ (t.bytes ++ rest)) asResponse (fuel + 1) pre.length out =
          some (out ++ p :: q :: more)) := by
  obtain ⟨p, front, hfront, hpos, hshown, hends, hround⟩ :=
    httpParseLoop_trailed h hsmall pre rest hroom fuel
  have hlen := congrArg List.length hfront
  rw [List.length_append] at hlen hends
  rw [Trailed.left, htrailers] at hfront
  refine ⟨p, hshown, by omega, ?_⟩
  rw [hround]
  by_cases hmore : out.length + 1 < kMaxMessages
  · have hsplit : pre ++ (t.bytes ++ rest) = pre ++ front ++ (trailerBytes (g :: fs) ++ rest) := by
      rw [hfront]
      simp only [List.append_assoc]
    have hgs : ∀ k ∈ g :: fs, k.Ok := fun k hk =>
      h.trailers k (htrailers ▸ List.mem_cons_of_mem f hk)
    rw [hsplit] at hfuel ⊢
    rcases @httpParseLoop_trailer g fs hgs asResponse (pre ++ front) rest (out ++ [p])
        (by simpa using hmore) fuel (by simp only [List.length_append] at hfuel ⊢; omega) with
      ⟨hstarts, hloop⟩ | ⟨q, more, hstarts, hrequest, hmethod, hloop⟩
    · exact .inl ⟨.inr hstarts, hloop⟩
    · refine .inr ⟨q, more, hstarts, hmore, hrequest, hmethod, ?_⟩
      exact hloop.trans (congrArg some (List.append_cons ..).symm)
  · refine .inl ⟨.inl (by omega), ?_⟩
    obtain ⟨fuel, rfl⟩ := Nat.exists_eq_succ_of_ne_zero (show fuel ≠ 0 by
      simp only [List.length_append] at hfuel
      omega)
    unfold httpParseLoop
    exact if_neg fun hroom => hmore (by simpa using hroom.2)

/-! ### Exactly -/

variable {asResponse : Bool} {room : Nat} {t u : Trailed} {ts : List Trailed}

theorem passed_last : Passed asResponse room [t] ↔ t.message.body.length ≤ kMaxBody ∧
    (1 = room ∨ ∀ f ∈ t.trailers[1]?, startsMessage asResponse f.line = false) := by
  constructor
  · rintro ⟨hsmall, -, hlast⟩
    exact ⟨hsmall t (List.mem_singleton_self t), hlast t rfl⟩
  · rintro ⟨hsmall, hlast⟩
    refine ⟨fun k hk => List.mem_singleton.mp hk ▸ hsmall, by simp, fun k hk => ?_⟩
    obtain rfl := Option.some.inj hk
    exact hlast

theorem passed_cons : Passed asResponse room (t :: u :: ts) ↔
    t.message.body.length ≤ kMaxBody ∧ t.trailers.length ≤ 1 ∧
      Passed asResponse (room - 1) (u :: ts) := by
  have hroom : (t :: u :: ts).length = room ↔ (u :: ts).length = room - 1 := by
    simp only [List.length_cons]
    omega
  constructor
  · rintro ⟨hsmall, hinner, hlast⟩
    rw [List.forall_mem_cons] at hsmall
    rw [List.dropLast_cons_cons, List.forall_mem_cons] at hinner
    rw [List.getLast?_cons_cons, hroom] at hlast
    exact ⟨hsmall.1, hinner.1, hsmall.2, hinner.2, hlast⟩
  · rintro ⟨hsmall, hone, hrest⟩
    refine ⟨List.forall_mem_cons.mpr ⟨hsmall, hrest.small⟩, ?_, ?_⟩
    · rw [List.dropLast_cons_cons]
      exact List.forall_mem_cons.mpr ⟨hone, hrest.inner⟩
    · rw [List.getLast?_cons_cons, hroom]
      exact hrest.last

theorem Trailed.Ok.bytes_pos (h : t.Ok asResponse) : 0 < t.bytes.length := by
  rw [Trailed.bytes, List.length_append]
  exact Nat.add_pos_left h.message.block.bytes_pos _

/-- No message that was sent is one that was read from a trailer. -/
theorem Trailed.Ok.method (h : t.Ok asResponse) {p : HttpMessage} (hshown : t.Shown p)
    (hresponse : asResponse = false) : 0x3A ∉ p.method := by
  subst hresponse
  have hstart := hshown.start
  have hok := h.message.start
  cases hline : t.message.start with
  | response =>
    rw [hline] at hok
    cases hok
  | request method target version =>
    rw [hline] at hstart hok
    cases hok with
    | request _ hmethod =>
      rw [hstart.2.1]
      exact fun hmem => absurd (hmethod _ hmem) (by decide)

theorem Passed.tail {n : Nat} (h : Passed asResponse (kMaxMessages - n) (t :: ts)) :
    Passed asResponse (kMaxMessages - (n + 1)) ts := by
  cases ts with
  | nil => exact ⟨by simp, by simp, by simp⟩
  | cons u ts =>
    rw [← Nat.sub_sub]
    exact (passed_cons.mp h).2.2

theorem Passed.cons {n : Nat} (hsmall : t.message.body.length ≤ kMaxBody)
    (hone : t.trailers.length ≤ 1) (h : Passed asResponse (kMaxMessages - (n + 1)) ts) :
    Passed asResponse (kMaxMessages - n) (t :: ts) := by
  cases ts with
  | nil =>
    refine passed_last.mpr ⟨hsmall, .inr fun f hf => ?_⟩
    have hsecond := (List.getElem?_eq_some_iff.mp hf).1
    omega
  | cons u ts =>
    rw [← Nat.sub_sub] at h
    exact passed_cons.mpr ⟨hsmall, hone, h⟩

theorem more_trailers (h : ¬t.trailers.length ≤ 1) : ∃ f g fs, t.trailers = f :: g :: fs := by
  match htrailers : t.trailers, h with
  | [], h => exact absurd (Nat.zero_le _) h
  | [f], h => exact absurd (Nat.le_refl _) h
  | f :: g :: fs, _ => exact ⟨f, g, fs, rfl⟩

theorem flatMap_bytes_length (pre : Bytes) (t : Trailed) (ts : List Trailed) :
    (pre ++ (t :: ts).flatMap Trailed.bytes).length =
      pre.length + t.bytes.length + (ts.flatMap Trailed.bytes).length := by
  rw [List.flatMap_cons, List.length_append, List.length_append, Nat.add_assoc]

/-- A stream that is passed gives its messages. -/
theorem httpParseLoop_returned (hts : ∀ t ∈ ts, t.Ok asResponse) {pre : Bytes} {fuel : Nat}
    (hfuel : (pre ++ ts.flatMap Trailed.bytes).length < fuel + pre.length)
    {out : List HttpMessage} (hroom : out.length + ts.length ≤ kMaxMessages)
    (h : Passed asResponse (kMaxMessages - out.length) ts) :
    ∃ ps, Trailed.Returned pre.length ts ps ∧
      httpParseLoop (pre ++ ts.flatMap Trailed.bytes) asResponse fuel pre.length out =
        some (out ++ ps) := by
  induction ts generalizing pre fuel out with
  | nil =>
    rw [List.flatMap_nil, List.append_nil] at hfuel ⊢
    obtain ⟨fuel, rfl⟩ := Nat.exists_eq_succ_of_ne_zero (show fuel ≠ 0 by omega)
    refine ⟨[], .nil, ?_⟩
    unfold httpParseLoop
    rw [if_neg fun h => Nat.lt_irrefl _ h.1, List.append_nil]
  | cons t ts ih =>
    have hok := hts t (List.mem_cons_self ..)
    have hsmall := h.small t (List.mem_cons_self ..)
    have hpos := hok.bytes_pos
    rw [List.length_cons] at hroom
    have hwhole := hfuel
    rw [flatMap_bytes_length] at hfuel
    by_cases hone : t.trailers.length ≤ 1
    · obtain ⟨fuel, rfl⟩ := Nat.exists_eq_succ_of_ne_zero (show fuel ≠ 0 by omega)
      obtain ⟨fuel, rfl⟩ := Nat.exists_eq_succ_of_ne_zero (show fuel ≠ 0 by omega)
      obtain ⟨p, hshown, hends, hpassed, hround⟩ := httpParseLoop_passed hok hsmall hone pre
        (ts.flatMap Trailed.bytes) (show out.length < kMaxMessages by omega) fuel
      have hlen : (out ++ [p]).length = out.length + 1 := List.length_append
      obtain ⟨ps, hall, hloop⟩ := @ih (fun k hk => hts k (List.mem_cons_of_mem _ hk))
        (pre ++ t.bytes) (fuel + 1) (by simp only [List.length_append]; omega) (out ++ [p])
        (by omega) (hlen ▸ h.tail)
      rw [List.length_append] at hall
      rw [List.append_assoc] at hloop
      refine ⟨p :: ps, .cons hshown hends (.inr hpassed) hall, ?_⟩
      rw [List.flatMap_cons, hround, hloop]
      exact congrArg some (List.append_cons ..).symm
    · -- a message with more trailers is the last one
      obtain rfl : ts = [] := by
        cases ts with
        | nil => rfl
        | cons u ts => exact absurd (passed_cons.mp h).2.1 hone
      obtain ⟨f, g, fs, htrailers⟩ := more_trailers hone
      obtain ⟨fuel, rfl⟩ := Nat.exists_eq_succ_of_ne_zero (show fuel ≠ 0 by omega)
      obtain ⟨p, hshown, hends, ⟨-, hloop⟩ | ⟨q, more, hstarts, hmore, -⟩⟩ :=
        @httpParseLoop_left t asResponse hok hsmall f g fs htrailers pre [] out (by omega) fuel
          hwhole
      · refine ⟨[p], .cons hshown hends (.inl rfl) .nil, ?_⟩
        exact hloop
      · rcases (passed_last.mp h).2 with hfull | hignored
        · omega
        · rw [hignored g (by rw [htrailers]; rfl)] at hstarts
          cases hstarts

/-- A stream that gives its messages is passed. -/
theorem passed_of_loop (hts : ∀ t ∈ ts, t.Ok asResponse) {pre : Bytes} {fuel : Nat}
    (hfuel : (pre ++ ts.flatMap Trailed.bytes).length < fuel + pre.length)
    {out ps : List HttpMessage} (hroom : out.length + ts.length ≤ kMaxMessages)
    (hloop : httpParseLoop (pre ++ ts.flatMap Trailed.bytes) asResponse fuel pre.length out =
      some (out ++ ps))
    (hshown : List.Forall₂ Trailed.Shown ts ps) :
    Passed asResponse (kMaxMessages - out.length) ts := by
  induction hshown generalizing pre fuel out with
  | nil => exact ⟨by simp, by simp, by simp⟩
  | @cons t p ts ps hp hall ih =>
    have hok := hts t (List.mem_cons_self ..)
    have hpos := hok.bytes_pos
    rw [List.length_cons] at hroom
    have hwhole := hfuel
    rw [flatMap_bytes_length] at hfuel
    have hsmall : t.message.body.length ≤ kMaxBody := by
      obtain ⟨more, hmore, hcapped⟩ := @httpParseLoop_total _ asResponse fuel pre.length (by simp)
        hwhole out
      have heq := Option.some.inj (hloop.symm.trans hmore)
      rw [← hp.body]
      exact hcapped p (List.append_cancel_left heq ▸ List.mem_cons_self ..)
    rw [List.flatMap_cons] at hloop hwhole
    obtain ⟨fuel, rfl⟩ := Nat.exists_eq_succ_of_ne_zero (show fuel ≠ 0 by omega)
    by_cases hone : t.trailers.length ≤ 1
    · obtain ⟨fuel, rfl⟩ := Nat.exists_eq_succ_of_ne_zero (show fuel ≠ 0 by omega)
      obtain ⟨p', -, -, -, hround⟩ := httpParseLoop_passed hok hsmall hone pre
        (ts.flatMap Trailed.bytes) (show out.length < kMaxMessages by omega) fuel
      have hlen : (out ++ [p]).length = out.length + 1 := List.length_append
      rw [hround] at hloop
      rw [← List.append_assoc] at hloop hwhole
      have hnext : (pre ++ t.bytes ++ ts.flatMap Trailed.bytes).length <
          fuel + 1 + (pre ++ t.bytes).length := by
        simp only [List.length_append] at hwhole ⊢
        omega
      obtain rfl : p = p' := httpParseLoop_first (by simp) hnext hloop
      rw [List.append_cons out p ps] at hloop
      have hrest := ih (fun k hk => hts k (List.mem_cons_of_mem _ hk)) hnext (by omega) hloop
      exact (hlen ▸ hrest).cons hsmall hone
    · obtain ⟨f, g, fs, htrailers⟩ := more_trailers hone
      obtain ⟨p', -, -, ⟨hstop, hleft⟩ | ⟨q, more, -, -, hrequest, hmethod, hleft⟩⟩ :=
        @httpParseLoop_left t asResponse hok hsmall f g fs htrailers pre
          (ts.flatMap Trailed.bytes) out (by omega) fuel hwhole
      · have heq := List.append_cancel_left (Option.some.inj (hloop.symm.trans hleft))
        obtain ⟨-, rfl⟩ := List.cons.inj heq
        cases hall
        refine passed_last.mpr ⟨hsmall, ?_⟩
        rcases hstop with hfull | hignored
        · exact .inl (by omega)
        · refine .inr fun k hk => ?_
          rw [htrailers] at hk
          obtain rfl := Option.some.inj hk
          exact hignored
      · -- what is read from a trailer is none of the messages
        have heq := List.append_cancel_left (Option.some.inj (hloop.symm.trans hleft))
        obtain ⟨-, rfl⟩ := List.cons.inj heq
        cases hall with
        | cons hq hmore =>
          exact absurd hmethod ((hts _ (by simp)).method hq hrequest)

theorem Trailed.Returned.shown {off : Nat} {ps : List HttpMessage}
    (h : Trailed.Returned off ts ps) : List.Forall₂ Trailed.Shown ts ps := by
  induction h with
  | nil => exact .nil
  | cons shown _ _ _ ih => exact .cons shown ih

/-- The messages of a stream are recovered exactly when it is passed, and then nothing of a trailer
section is left in front of the next message but its blank line. -/
theorem httpParse_trailers (hts : ∀ t ∈ ts, t.Ok asResponse) (hmany : ts.length ≤ kMaxMessages) :
    ((∃ ps, httpParse (ts.flatMap Trailed.bytes) asResponse = some ps ∧
        List.Forall₂ Trailed.Shown ts ps) ↔ Passed asResponse kMaxMessages ts) ∧
    (Passed asResponse kMaxMessages ts →
      ∃ ps, httpParse (ts.flatMap Trailed.bytes) asResponse = some ps ∧
        Trailed.Returned 0 ts ps) := by
  by_cases hnil : ts = []
  · subst hnil
    refine ⟨⟨fun _ => ⟨by simp, by simp, by simp⟩, fun _ => ⟨[], rfl, .nil⟩⟩, fun _ => ⟨[], rfl, .nil⟩⟩
  obtain ⟨t, us, rfl⟩ := List.exists_cons_of_ne_nil hnil
  have hne : (t :: us).flatMap Trailed.bytes ≠ [] := by
    have hpos := (hts t (List.mem_cons_self ..)).bytes_pos
    have hlen := flatMap_bytes_length [] t us
    apply List.ne_nil_of_length_pos
    rw [List.nil_append, List.length_nil] at hlen
    omega
  have hfuel : ((t :: us).flatMap Trailed.bytes).length <
      ((t :: us).flatMap Trailed.bytes).length + 1 + 0 := Nat.lt_succ_self _
  rw [← Nat.zero_add (t :: us).length] at hmany
  have henough (h : Passed asResponse kMaxMessages (t :: us)) :
      ∃ ps, httpParse ((t :: us).flatMap Trailed.bytes) asResponse = some ps ∧
        Trailed.Returned 0 (t :: us) ps := by
    obtain ⟨ps, hall, hloop⟩ := @httpParseLoop_returned asResponse _ hts [] _ hfuel [] hmany h
    refine ⟨ps, ?_, hall⟩
    unfold httpParse
    rw [if_neg hne]
    exact hloop
  refine ⟨⟨?_, fun h => ?_⟩, henough⟩
  · rintro ⟨ps, hparse, hall⟩
    unfold httpParse at hparse
    rw [if_neg hne] at hparse
    exact @passed_of_loop asResponse _ hts [] _ hfuel [] ps hmany hparse hall
  · obtain ⟨ps, hparse, hall⟩ := henough h
    exact ⟨ps, hparse, hall.shown⟩

def trailerField (name value : Bytes) : Field := ⟨name, value, [0x20], []⟩

/-- The response `abc` in one chunk, with the trailer fields. -/
def trailedResponse (trailers : List Field) : Trailed := ⟨chunkedResponse [abcChunk], trailers⟩

theorem trailedResponse_ok {trailers : List Field} (h : ∀ f ∈ trailers, f.Ok) :
    (trailedResponse trailers).Ok true where
  message := chunkedResponse_ok (by simpa using ⟨abcChunk_ok, by decide⟩)
  trailers := h
  chunked := .inr ⟨_, _, _, rfl⟩

theorem trailerField_ok {name value : Bytes} (hname : name ≠ [] ∧ ∀ c ∈ name, isToken c = true)
    (hvalue : ∀ c ∈ value, InLine c) (htrimmed : Trimmed value) : (trailerField name value).Ok where
  name := hname
  value := hvalue
  trimmed := htrimmed
  before := fun c hc => .inl (List.mem_singleton.mp hc)
  after := by simp [Blank, trailerField]

def sumTrailer : Field := trailerField (text "X-Sum") (text "1")

def sizeTrailer : Field := trailerField (text "X-Size") (text "3")

theorem sumTrailer_ok : sumTrailer.Ok := trailerField_ok (by decide) (by decide) (by decide)

theorem sizeTrailer_ok : sizeTrailer.Ok := trailerField_ok (by decide) (by decide) (by decide)

/-- A trailer in front of another response, and two at the end. -/
theorem httpParse_trailers_three :
    ((∃ ps, httpParse ([trailedResponse [sumTrailer],
        trailedResponse [sumTrailer, sizeTrailer]].flatMap Trailed.bytes) true = some ps ∧
        List.Forall₂ Trailed.Shown [trailedResponse [sumTrailer],
          trailedResponse [sumTrailer, sizeTrailer]] ps) ↔
      Passed true kMaxMessages [trailedResponse [sumTrailer],
        trailedResponse [sumTrailer, sizeTrailer]]) ∧
    (Passed true kMaxMessages [trailedResponse [sumTrailer],
        trailedResponse [sumTrailer, sizeTrailer]] →
      ∃ ps, httpParse ([trailedResponse [sumTrailer],
          trailedResponse [sumTrailer, sizeTrailer]].flatMap Trailed.bytes) true = some ps ∧
        Trailed.Returned 0 [trailedResponse [sumTrailer],
          trailedResponse [sumTrailer, sizeTrailer]] ps) := by
  apply httpParse_trailers
  · simp only [List.forall_mem_cons, List.not_mem_nil, false_implies, implies_true, and_true]
    exact ⟨trailedResponse_ok (by simpa using sumTrailer_ok),
      trailedResponse_ok (by simpa using ⟨sumTrailer_ok, sizeTrailer_ok⟩)⟩
  · decide

/-- Two trailers hide the response behind them. -/
theorem httpParse_hides :
    (∀ t ∈ [trailedResponse [sumTrailer, sizeTrailer], trailedResponse []], t.Ok true) ∧
    ¬∃ ps, httpParse ([trailedResponse [sumTrailer, sizeTrailer],
        trailedResponse []].flatMap Trailed.bytes) true = some ps ∧
      List.Forall₂ Trailed.Shown
        [trailedResponse [sumTrailer, sizeTrailer], trailedResponse []] ps := by
  constructor
  · simp only [List.forall_mem_cons, List.not_mem_nil, false_implies, implies_true, and_true]
    exact ⟨trailedResponse_ok (by simpa using ⟨sumTrailer_ok, sizeTrailer_ok⟩),
      trailedResponse_ok (by simp)⟩
  · rintro ⟨ps, hparse, hall⟩
    have hone : (httpParse ([trailedResponse [sumTrailer, sizeTrailer],
        trailedResponse []].flatMap Trailed.bytes) true).map List.length = some 1 := by
      decide +kernel
    rw [hparse, Option.map_some, ← hall.length_eq] at hone
    cases hone

end NetDebugger.Http
