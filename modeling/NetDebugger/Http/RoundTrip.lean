import NetDebugger.Http.Body

/-! `HttpParse` gives back a stream of messages that were written one behind the other.  `Reads` says
what the loop returns from an offset on, so that a message is read at its own place. -/

namespace NetDebugger.Http

open Lib

/-- A message with at most one field that announces its content. -/
structure Message where
  start : StartLine
  before : List Field
  content : Content
  after : List Field
deriving DecidableEq

/-- A response without content, whatever its fields. -/
def StartLine.bodyless : StartLine → Bool
  | .request .. => false
  | .response _ status _ _ => decide (status < 200 ∨ status = 204 ∨ status = 304)

namespace Message

variable (m : Message)

def block : Block := ⟨m.start, m.before ++ (m.content.fields ++ m.after)⟩

def bytes : Bytes := m.block.bytes ++ m.content.payload

def body : Bytes := m.content.body

structure Ok (asResponse : Bool) : Prop where
  start : m.start.Ok asResponse
  status : m.start.bodyless = false
  others : ∀ f ∈ m.before ++ m.after, f.Ok ∧ lower f.name ≠ text "content-length" ∧
    lower f.name ≠ text "transfer-encoding"
  content : m.content.Ok
  framed : m.content = .absent → asResponse = false

end Message

structure Message.Shown (m : Message) (p : HttpMessage) : Prop where
  valid : p.valid = true
  start : m.start.Shown p
  headers : p.headers = m.block.headers
  body : p.body = m.body.take kMaxBody
  truncated : p.bodyTruncated = decide (kMaxBody < m.body.length)

/-! ### The loop -/

/-- From the offset on, the messages are parsed to the end of the buffer. -/
inductive Reads (d : Bytes) (asResponse : Bool) : Nat → List HttpMessage → Prop
  | done {off : Nat} (hend : off ≤ d.length) (hblank : ∀ c ∈ d.drop off, ¬InLine c) :
      Reads d asResponse off []
  | message {off stop : Nat} {c : UInt8} {p : HttpMessage} {ps : List HttpMessage}
      (hstart : d[off]? = some c) (hline : InLine c)
      (hparse : parseOne d off asResponse = some (some (p, stop))) (hadvance : off < stop)
      (hrest : Reads d asResponse stop ps) : Reads d asResponse off (p :: ps)

theorem skipBlank_line {d : Bytes} {off : Nat} {c : UInt8} (hstart : d[off]? = some c)
    (hline : InLine c) (fuel : Nat) : skipBlank d (fuel + 1) off = some off := by
  obtain ⟨hoff, rfl⟩ := List.getElem?_eq_some_iff.mp hstart
  rw [skipBlank_at hoff, if_neg]
  rintro (hc | hc)
  · exact hline.1 hc
  · exact hline.2 hc

theorem skipBlank_blank {d : Bytes} {off : Nat} (hend : off ≤ d.length)
    (hblank : ∀ c ∈ d.drop off, ¬InLine c) {fuel : Nat} (hfuel : d.length < fuel + off) :
    skipBlank d fuel off = some d.length := by
  induction fuel generalizing off with
  | zero => omega
  | succ fuel ih =>
    by_cases hoff : off < d.length
    · have hdrop := List.drop_eq_getElem_cons hoff
      have hc : d[off] = 0x0D ∨ d[off] = 0x0A := by
        have hnot := hblank d[off] (hdrop ▸ List.mem_cons_self ..)
        by_contra hor
        exact hnot (not_or.mp hor)
      rw [skipBlank_at hoff, if_pos hc]
      apply ih hoff
      · intro c hmem
        exact hblank c (hdrop ▸ List.mem_cons_of_mem _ hmem)
      · omega
    · rw [skipBlank_end hoff, Nat.le_antisymm hend (Nat.le_of_not_lt hoff)]

/-- A round of the loop at a start line. -/
theorem httpParseLoop_start {d : Bytes} {asResponse : Bool} {off : Nat} {c : UInt8}
    (hstart : d[off]? = some c) (hline : InLine c) {out : List HttpMessage}
    (hroom : out.length < kMaxMessages) (fuel : Nat) :
    httpParseLoop d asResponse (fuel + 1) off out =
      (parseOne d off asResponse).bind fun
        | none => some out
        | some (m, stop) =>
          if stop ≤ off then some (out ++ [m])
          else httpParseLoop d asResponse fuel stop (out ++ [m]) := by
  obtain ⟨hoff, -⟩ := List.getElem?_eq_some_iff.mp hstart
  conv => lhs; unfold httpParseLoop
  rw [if_pos ⟨hoff, hroom⟩, skipBlank_line hstart hline, Option.bind_eq_bind, Option.bind_some,
    if_neg (Nat.not_le.mpr hoff)]
  rfl

theorem httpParseLoop_reads {d : Bytes} {asResponse : Bool} {off : Nat} {ps : List HttpMessage}
    (h : Reads d asResponse off ps) {fuel : Nat} (hfuel : d.length < fuel + off)
    (hpos : 0 < fuel) {out : List HttpMessage} (hroom : out.length + ps.length ≤ kMaxMessages) :
    httpParseLoop d asResponse fuel off out = some (out ++ ps) := by
  induction h generalizing fuel out with
  | @done off hend hblank =>
    obtain ⟨fuel, rfl⟩ := Nat.exists_eq_succ_of_ne_zero (Nat.ne_of_gt hpos)
    unfold httpParseLoop
    rw [List.append_nil, skipBlank_blank hend hblank (by omega), Option.bind_eq_bind,
      Option.bind_some, if_pos (Nat.le_refl _), ite_self]
  | @message off stop c p ps hstart hline hparse hadvance hrest ih =>
    obtain ⟨fuel, rfl⟩ := Nat.exists_eq_succ_of_ne_zero (Nat.ne_of_gt hpos)
    obtain ⟨hoff, -⟩ := List.getElem?_eq_some_iff.mp hstart
    rw [List.length_cons] at hroom
    rw [httpParseLoop_start hstart hline (by omega), hparse, Option.bind_some]
    simp only
    rw [if_neg (Nat.not_le.mpr hadvance), ih (by omega) (by omega) (by simp; omega)]
    simp

theorem httpParse_reads {d : Bytes} {asResponse : Bool} {ps : List HttpMessage}
    (h : Reads d asResponse 0 ps) (hroom : ps.length ≤ kMaxMessages) :
    httpParse d asResponse = some ps := by
  unfold httpParse
  by_cases hnil : d = []
  · subst hnil
    rw [if_pos rfl]
    cases h with
    | done => rfl
    | message hstart => cases hstart
  · rw [if_neg hnil, httpParseLoop_reads h (by omega) (by omega) (by simpa using hroom)]
    rfl

/-- A message is read at its head, when its body ends. -/
theorem Reads.block {b : Block} {asResponse : Bool} (h : b.Ok asResponse) {pre rest : Bytes}
    {q : HttpMessage} {stop : Nat} {ps : List HttpMessage}
    (hbody : parseBody (pre ++ (b.bytes ++ rest)) (pre.length + b.bytes.length) asResponse
      b.message = some (q, stop)) (hadvance : pre.length < stop)
    (hrest : Reads (pre ++ (b.bytes ++ rest)) asResponse stop ps) :
    Reads (pre ++ (b.bytes ++ rest)) asResponse pre.length
      ({ q with valid := true, consumed := stop } :: ps) := by
  obtain ⟨c, t, hhead, hc⟩ := h.head
  have hparse := parseOne_block h pre rest
  rw [hbody, Option.map_some] at hparse
  have hstart : (pre ++ (b.bytes ++ rest))[pre.length]? = some c := by
    rw [getElem?_mid_zero, hhead]
    rfl
  exact .message hstart hc hparse hadvance hrest

/-! ### A message -/

theorem Message.Ok.block {m : Message} {asResponse : Bool} (h : m.Ok asResponse) :
    m.block.Ok asResponse := by
  refine ⟨h.start, ?_⟩
  intro f hf
  simp only [Message.block, List.mem_append] at hf
  rcases hf with hf | hf | hf
  · exact (h.others f (List.mem_append_left _ hf)).1
  · exact h.content.fields f hf
  · exact (h.others f (List.mem_append_right _ hf)).1

/-- Fields with other names do not hide the header, and are not taken for it. -/
theorem httpFindHeader_between {before after : List Field} {hs : List HttpHeader} {name : Bytes}
    (hothers : ∀ f ∈ before ++ after, lower f.name ≠ lower name) :
    httpFindHeader (before.map Field.header ++ (hs ++ after.map Field.header)) name =
      httpFindHeader hs name := by
  have hnone (fs : List Field) (hfs : ∀ f ∈ fs, lower f.name ≠ lower name) :
      (fs.map Field.header).find? (fun h => decide (lower h.name = lower name)) = none := by
    refine List.find?_eq_none.mpr fun h hh => ?_
    obtain ⟨f, hf, rfl⟩ := List.mem_map.mp hh
    exact fun heq => hfs f hf (of_decide_eq_true heq)
  unfold httpFindHeader
  rw [List.find?_append, List.find?_append,
    hnone before fun f hf => hothers f (List.mem_append_left _ hf),
    hnone after fun f hf => hothers f (List.mem_append_right _ hf), Option.none_or, Option.or_none]

theorem any_isChunked_other {fs : List Field}
    (hfs : ∀ f ∈ fs, lower f.name ≠ text "transfer-encoding") :
    (fs.map Field.header).any HttpHeader.isChunked = false := by
  refine List.any_eq_false.mpr fun h hh => ?_
  obtain ⟨f, hf, rfl⟩ := List.mem_map.mp hh
  have hname : decide (lower f.header.name = text "transfer-encoding") = false :=
    decide_eq_false (hfs f hf)
  rw [HttpHeader.isChunked, hname]
  exact Bool.false_ne_true

/-- Every chunk has a size that `unsigned long` holds. -/
def Message.Chunks32 (m : Message) : Prop := ∀ c ∈ m.content.chunks, c.data.length < 2 ^ 32

theorem Message.headers_eq (m : Message) : m.block.headers = m.before.map Field.header ++
    (m.content.fields.map Field.header ++ m.after.map Field.header) := by
  simp [Block.headers, Message.block]

/-- The length is read from the content's own field. -/
theorem Message.Ok.lengthHeader {m : Message} {asResponse : Bool} (h : m.Ok asResponse) :
    httpFindHeader m.block.message.headers (text "Content-Length") = m.content.lengthHeader := by
  rw [h.block.stored.headers, m.headers_eq]
  exact httpFindHeader_between fun f hf => (h.others f hf).2.1

theorem Message.Ok.isChunked {m : Message} {asResponse : Bool} (h : m.Ok asResponse) :
    m.block.message.chunked = (m.content.fields.map Field.header).any HttpHeader.isChunked := by
  have hbefore := any_isChunked_other fun f hf =>
    (h.others f (List.mem_append_left m.after hf)).2.2
  have hafter := any_isChunked_other fun f hf =>
    (h.others f (List.mem_append_right m.before hf)).2.2
  rw [h.block.stored.chunked, m.headers_eq]
  simp only [List.any_append, hbefore, hafter, Bool.false_or, Bool.or_false]

/-- The body of a message is stored, and ends where the message ends. -/
theorem parseBody_sent {m : Message} {asResponse : Bool} (h : m.Ok asResponse)
    (hsizes : m.Chunks32) (pre rest : Bytes) :
    ∃ q, parseBody (pre ++ (m.block.bytes ++ (m.content.payload ++ rest)))
        (pre.length + m.block.bytes.length) asResponse m.block.message =
          some (q, (pre ++ m.bytes).length) ∧
      m.Shown { q with valid := true, consumed := (pre ++ m.bytes).length } := by
  have hstored := h.block.stored
  obtain ⟨n, hbody⟩ := Content.parseBody_content h.content h.framed hsizes h.lengthHeader
    h.isChunked hstored.body hstored.truncated (pre ++ m.block.bytes) rest
  have hbytes : pre ++ m.block.bytes ++ m.content.payload = pre ++ m.bytes := List.append_assoc ..
  rw [hbytes, @List.length_append _ pre m.block.bytes, List.append_assoc] at hbody
  exact ⟨_, hbody, rfl, hstored.start.done .., hstored.headers, rfl, rfl⟩

/-- A message is read, and the loop is behind it. -/
theorem Reads.sent {m : Message} {asResponse : Bool} (h : m.Ok asResponse) (hsizes : m.Chunks32)
    {pre rest : Bytes} {ps : List HttpMessage}
    (hrest : Reads (pre ++ (m.bytes ++ rest)) asResponse (pre ++ m.bytes).length ps) :
    ∃ p, m.Shown p ∧ p.consumed = (pre ++ m.bytes).length ∧
      Reads (pre ++ (m.bytes ++ rest)) asResponse pre.length (p :: ps) := by
  obtain ⟨q, hbody, hshown⟩ := parseBody_sent h hsizes pre rest
  have hwhole : pre ++ (m.bytes ++ rest) = pre ++ (m.block.bytes ++ (m.content.payload ++ rest)) := by
    simp only [Message.bytes, List.append_assoc]
  have hpos := h.block.bytes_pos
  have hadvance : pre.length < (pre ++ m.bytes).length := by
    rw [List.length_append, Message.bytes, List.length_append]
    omega
  rw [hwhole] at hrest ⊢
  exact ⟨_, hshown, rfl, Reads.block h.block hbody hadvance hrest⟩

/-! ### The round trip -/

theorem reads_messages {ms : List Message} {asResponse : Bool} (hms : ∀ m ∈ ms, m.Ok asResponse)
    (hsizes : ∀ m ∈ ms, m.Chunks32) (pre : Bytes) :
    ∃ ps, List.Forall₂ Message.Shown ms ps ∧
      Reads (pre ++ ms.flatMap Message.bytes) asResponse pre.length ps := by
  induction ms generalizing pre with
  | nil =>
    refine ⟨[], .nil, ?_⟩
    rw [List.flatMap_nil, List.append_nil]
    exact .done (Nat.le_refl _) (by simp)
  | cons m ms ih =>
    have hm := hms m (List.mem_cons_self ..)
    obtain ⟨ps, hall, hrest⟩ := ih (fun k hk => hms k (List.mem_cons_of_mem _ hk))
      (fun k hk => hsizes k (List.mem_cons_of_mem _ hk)) (pre ++ m.bytes)
    rw [List.append_assoc] at hrest
    obtain ⟨p, hshown, -, hreads⟩ := Reads.sent hm (hsizes m (List.mem_cons_self ..)) hrest
    exact ⟨p :: ps, .cons hshown hall, hreads⟩

/-- A stream of messages of one kind is parsed into these messages, whatever their bodies hold. -/
theorem httpParse_messages {ms : List Message} {asResponse : Bool}
    (hms : ∀ m ∈ ms, m.Ok asResponse) (hsizes : ∀ m ∈ ms, m.Chunks32)
    (hmany : ms.length ≤ kMaxMessages) :
    ∃ ps, httpParse (ms.flatMap Message.bytes) asResponse = some ps ∧
      List.Forall₂ Message.Shown ms ps := by
  obtain ⟨ps, hall, hreads⟩ := reads_messages hms hsizes []
  have hlen := hall.length_eq
  exact ⟨ps, httpParse_reads hreads (by omega), hall⟩

def okStart : StartLine := .response (text "HTTP/1.1") 200 (text "200") (text "OK")

theorem okStart_ok : okStart.Ok true :=
  .response ⟨0x31, by decide, by decide, rfl⟩ ⟨by decide, by decide, by decide⟩ rfl (by decide)
    (by decide) (by decide)

def chunkedField : Field := ⟨text "Transfer-Encoding", text "chunked", [0x20], []⟩

theorem chunkedField_ok : chunkedField.Ok where
  name := by decide
  value := by decide
  trimmed := by decide
  before := fun c hc => .inl (List.mem_singleton.mp hc)
  after := by simp [Blank, chunkedField]

def lengthField (length : Bytes) : Field := ⟨text "Content-Length", length, [0x20], []⟩

theorem lengthField_ok {length : Bytes} {n : Nat} (h : Numeral 10 length n) :
    (lengthField length).Ok where
  name := by simp only [lengthField]; decide
  value := visible_inLine (h.visible (by decide))
  trimmed := h.trimmed (by decide)
  before := fun c hc => .inl (List.mem_singleton.mp hc)
  after := by simp [Blank, lengthField]

def lastChunk : Chunk := ⟨text "0", [], []⟩

theorem lastChunk_ok : lastChunk.Ok := ⟨⟨by decide, by decide, by decide⟩, .inl rfl⟩

/-- A response in chunks. -/
def chunkedResponse (chunks : List Chunk) : Message :=
  ⟨okStart, [], .chunked chunkedField chunks lastChunk, []⟩

theorem chunkedResponse_ok {chunks : List Chunk} (h : ∀ c ∈ chunks, c.Ok ∧ c.data ≠ []) :
    (chunkedResponse chunks).Ok true where
  start := okStart_ok
  status := rfl
  others := by simp [chunkedResponse]
  content := .chunked chunkedField_ok (by decide) (by decide) h lastChunk_ok rfl
  framed := by simp [chunkedResponse]

/-- A response with a length. -/
def sizedResponse (length body : Bytes) : Message :=
  ⟨okStart, [], .sized (lengthField length) body, []⟩

theorem sizedResponse_ok {length body : Bytes} (h : Numeral 10 length body.length)
    (hsmall : body.length < 2 ^ 32) : (sizedResponse length body).Ok true where
  start := okStart_ok
  status := rfl
  others := by simp [sizedResponse]
  content := .sized (lengthField_ok h) (by simp only [lengthField]; decide) h hsmall
  framed := by simp [sizedResponse]

def abcChunk : Chunk := ⟨text "3", text ";a=b", text "abc"⟩

theorem abcChunk_ok : abcChunk.Ok :=
  ⟨⟨by decide, by decide, by decide⟩, .inr ⟨[], text "a=b", rfl, by simp [Blank], by decide⟩⟩

/-- A body in chunks, and a body that looks like a response. -/
theorem httpParse_messages_two :
    ∃ ps, httpParse ([chunkedResponse [abcChunk],
        sizedResponse (text "8") (text "HTTP/1.1")].flatMap Message.bytes) true = some ps ∧
      List.Forall₂ Message.Shown
        [chunkedResponse [abcChunk], sizedResponse (text "8") (text "HTTP/1.1")] ps := by
  apply httpParse_messages
  · simp only [List.forall_mem_cons, List.not_mem_nil, false_implies, implies_true, and_true]
    exact ⟨chunkedResponse_ok (by simpa using ⟨abcChunk_ok, by decide⟩),
      sizedResponse_ok ⟨by decide, by decide, by decide⟩ (by decide)⟩
  · simp only [List.forall_mem_cons, List.not_mem_nil, false_implies, implies_true, and_true]
    exact ⟨by unfold Message.Chunks32; decide, by unfold Message.Chunks32; decide⟩
  · decide

/-! ### A chunk that `unsigned long` does not hold -/

/-- A chunk with `F` for its last byte. -/
def bigChunk (front : Bytes) : Chunk := ⟨text "100000000", [], front ++ text "F"⟩

theorem bigChunk_ok {front : Bytes} (hfront : front.length = 2 ^ 32 - 1) :
    (bigChunk front).Ok ∧ (bigChunk front).data ≠ [] := by
  have hvalue : digitsVal 16 0 (text "100000000") = 2 ^ 32 - 1 + (text "F").length := by decide
  rw [← hfront, ← List.length_append] at hvalue
  have hdigits : ∀ c ∈ text "100000000", (digitVal 16 c).isSome = true := by decide
  exact ⟨⟨⟨by simp [bigChunk, text], hdigits, hvalue⟩, .inl rfl⟩, by simp [bigChunk, text]⟩

def emptyResponse : Message := sizedResponse (text "0") []

/-- The 15 bytes behind the chunk, which `F` announces. -/
def swallowed : Bytes := text "0" ++ (crlf ++ (crlf ++ text "HTTP/1.1 2"))

def bigChunkStream (front rest : Bytes) : Bytes :=
  text "100000000" ++ (crlf ++ (front ++ (text "F" ++ (crlf ++ (swallowed ++ (text "00 OK" ++ (crlf ++
    (text "Content-Length: 0" ++ (crlf ++ rest)))))))))

theorem bigChunk_bytes (front : Bytes) :
    (chunkedResponse [bigChunk front]).bytes ++ emptyResponse.bytes =
      (chunkedResponse []).block.bytes ++ bigChunkStream front crlf := by
  have hrest : swallowed ++ (text "00 OK" ++ (crlf ++ (text "Content-Length: 0" ++ (crlf ++ crlf)))) =
      lastChunk.bytes ++ emptyResponse.bytes := by decide
  rw [bigChunkStream, hrest]
  simp only [Message.bytes, Content.payload, chunkedResponse, chunksBytes, List.flatMap_cons,
    List.flatMap_nil, List.append_nil, Chunk.bytes, Chunk.line, bigChunk, List.append_assoc]
  rfl

/-- The size of the chunk is taken for less, and its last byte for a size. -/
theorem chunkLoop_bigChunk {front : Bytes} (hfront : front.length = 2 ^ 32 - 1)
    (pre rest : Bytes) (fuel : Nat) :
    ∃ r, chunkLoop (pre ++ bigChunkStream front rest) (fuel + 3) pre.length [] false =
      some ((pre ++ bigChunkStream front []).length, r) := by
  have hfirst : chunkSize (text "100000000") = front.length := by
    rw [hfront]
    decide
  have hne : front ≠ [] := by
    rintro rfl
    cases hfront
  have hF (s : Bytes) : ¬crlf <+: text "F" ++ s := not_isPrefix_of_head (by decide)
  have hzero (s : Bytes) : ¬crlf <+: text "00 OK" ++ s := not_isPrefix_of_head (by decide)
  have hstep1 := @chunkLoop_data _ (by decide) pre (text "F" ++ (crlf ++ (swallowed ++ (text "00 OK" ++
    (crlf ++ (text "Content-Length: 0" ++ (crlf ++ rest))))))) (fuel + 2) front hfirst hne []
  rw [if_neg (hF _)] at hstep1
  have hstep2 := @chunkLoop_data (text "F") (by decide)
    (pre ++ (text "100000000" ++ (crlf ++ front))) (text "00 OK" ++ (crlf ++
      (text "Content-Length: 0" ++ (crlf ++ rest)))) (fuel + 1) swallowed (by decide) (by decide) front
  rw [if_neg (hzero _)] at hstep2
  have hstep3 := @chunkLoop_last (text "00 OK") (by decide)
    (pre ++ (text "100000000" ++ (crlf ++ front)) ++ (text "F" ++ (crlf ++ swallowed))) rest fuel
    (by decide) (text "Content-Length: 0") (by decide) (capped (front ++ swallowed)).1
    (capped (front ++ swallowed)).2
  simp only [List.append_assoc, List.nil_append, Nat.add_zero] at hstep1 hstep2 hstep3
  refine ⟨capped (front ++ swallowed), ?_⟩
  simp only [bigChunkStream, List.append_nil]
  exact hstep1.trans (hstep2.trans hstep3)

theorem reads_bigChunk {front : Bytes} (hfront : front.length = 2 ^ 32 - 1) :
    ∃ p, Reads ((chunkedResponse [bigChunk front]).bytes ++ emptyResponse.bytes) true 0 [p] := by
  have hblock := (@chunkedResponse_ok [] (by simp)).block
  have hstored := hblock.stored
  have hchunked : (chunkedResponse []).block.message.chunked = true := by
    rw [hstored.chunked]
    decide
  have hlong (rest : Bytes) : 7 ≤ (bigChunkStream front rest).length := by
    simp only [bigChunkStream, List.length_append]
    exact Nat.le_add_right_of_le (by decide)
  obtain ⟨fuel, hfuel⟩ : ∃ fuel, ((chunkedResponse []).block.bytes ++
      bigChunkStream front crlf).length + 1 = fuel + 3 := by
    refine ⟨_, (Nat.sub_add_cancel ?_).symm⟩
    have h7 := hlong crlf
    rw [List.length_append]
    omega
  obtain ⟨r, hloop⟩ := chunkLoop_bigChunk hfront (chunkedResponse []).block.bytes crlf fuel
  have hbody : parseBody ((chunkedResponse []).block.bytes ++ bigChunkStream front crlf)
      (chunkedResponse []).block.bytes.length true (chunkedResponse []).block.message = some
      ({ (chunkedResponse []).block.message with
        body := r.1, bodyTruncated := r.2, bodyBytes := r.1.length },
        ((chunkedResponse []).block.bytes ++ bigChunkStream front []).length) := by
    unfold parseBody
    rw [if_pos hchunked, hstored.body, hstored.truncated, hfuel, hloop]
    rfl
  have hsplit : (chunkedResponse []).block.bytes ++ bigChunkStream front crlf =
      (chunkedResponse []).block.bytes ++ bigChunkStream front [] ++ crlf := by
    simp only [bigChunkStream, List.append_assoc, List.nil_append]
  have hend : Reads ((chunkedResponse []).block.bytes ++ bigChunkStream front crlf) true
      ((chunkedResponse []).block.bytes ++ bigChunkStream front []).length [] := by
    rw [hsplit]
    apply Reads.done
    · rw [@List.length_append _ _ crlf]
      exact Nat.le_add_right ..
    · rw [List.drop_left]
      decide
  rw [bigChunk_bytes]
  refine ⟨_, @Reads.block _ _ hblock [] _ _ _ _ (by simpa using hbody) ?_ hend⟩
  have h7 := hlong []
  rw [List.length_append]
  exact Nat.lt_of_lt_of_le (by decide) (Nat.le_add_left_of_le h7)

/-- A chunk of 2^32 bytes takes the next response with it. -/
theorem httpParse_bigChunk :
    (∀ m ∈ [chunkedResponse [bigChunk (List.replicate (2 ^ 32 - 1) 0x46)], emptyResponse],
      m.Ok true) ∧
    ¬∃ ps, httpParse ([chunkedResponse [bigChunk (List.replicate (2 ^ 32 - 1) 0x46)],
        emptyResponse].flatMap Message.bytes) true = some ps ∧
      List.Forall₂ Message.Shown
        [chunkedResponse [bigChunk (List.replicate (2 ^ 32 - 1) 0x46)], emptyResponse] ps := by
  have hfront : (List.replicate (2 ^ 32 - 1) (0x46 : UInt8)).length = 2 ^ 32 - 1 :=
    List.length_replicate
  obtain ⟨p, hreads⟩ := reads_bigChunk hfront
  generalize List.replicate (2 ^ 32 - 1) (0x46 : UInt8) = front at hfront hreads ⊢
  constructor
  · simp only [List.forall_mem_cons, List.not_mem_nil, false_implies, implies_true, and_true]
    exact ⟨chunkedResponse_ok (by simpa using bigChunk_ok hfront),
      sizedResponse_ok ⟨by decide, by decide, by decide⟩ (by decide)⟩
  · rintro ⟨ps, hps, hall⟩
    have hone := httpParse_reads hreads (show 1 ≤ kMaxMessages by decide)
    rw [List.flatMap_cons, List.flatMap_cons, List.flatMap_nil, List.append_nil, hone] at hps
    obtain rfl := Option.some.inj hps
    cases hall with
    | cons _ hnil => cases hnil

end NetDebugger.Http
