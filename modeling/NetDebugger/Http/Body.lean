import NetDebugger.Http.Message

/-! Bodies as they are sent, whole or in chunks, and what the parser stores of them.  The offsets are
those of the bytes behind the head. -/

namespace NetDebugger.Http

open Lib

/-- A body as it is stored, and whether that is less than the whole. -/
def capped (body : Bytes) : Bytes × Bool := (body.take kMaxBody, decide (kMaxBody < body.length))

theorem capped_nil : capped [] = ([], false) := rfl

theorem slice_mid_take (pre mid post : Bytes) {n : Nat} (hn : n ≤ mid.length) :
    slice (pre ++ (mid ++ post)) pre.length n = some (mid.take n) := by
  have hslice := slice_mid pre (mid.take n) (mid.drop n ++ post)
  rwa [← List.append_assoc (mid.take n), List.take_append_drop, List.length_take,
    Nat.min_eq_left hn] at hslice

/-- Another piece of a body is stored up to the cap. A full body is marked whatever the piece. -/
theorem appendCapped_piece (body bs pre post : Bytes) :
    appendCapped (pre ++ (bs ++ post)) pre.length bs.length (capped body).1 (capped body).2 =
      some ((body ++ bs).take kMaxBody,
        decide (kMaxBody ≤ body.length ∨ kMaxBody < (body ++ bs).length)) := by
  unfold appendCapped capped
  rw [List.length_take]
  by_cases hfull : kMaxBody ≤ body.length
  · rw [if_pos (by omega), List.take_append_of_le_length hfull, decide_eq_true (Or.inl hfull)]
  · have hroom : min kMaxBody body.length = body.length := Nat.min_eq_right (by omega)
    have hcap : body = body.take kMaxBody := (List.take_of_length_le (by omega)).symm
    have hstored := @take_append_take _ kMaxBody body bs body hcap
    rw [if_pos (by omega)] at hstored
    rw [if_neg (by omega), hroom]
    simp only [slice_mid_take _ _ _ (Nat.min_le_left ..), ← hcap, Option.map_some, hstored,
      List.length_append]
    congr 2
    rw [← Bool.decide_or, decide_eq_decide]
    omega

theorem appendCapped_capped {body bs : Bytes} (h : bs ≠ [] ∨ body = []) (pre post : Bytes) :
    appendCapped (pre ++ (bs ++ post)) pre.length bs.length (capped body).1 (capped body).2 =
      some (capped (body ++ bs)) := by
  have hflag : kMaxBody ≤ body.length ∨ kMaxBody < (body ++ bs).length ↔
      kMaxBody < (body ++ bs).length := by
    refine or_iff_right_of_imp fun hfull => ?_
    have hne : bs ≠ [] := by
      rcases h with h | rfl
      · exact h
      · exact absurd hfull (by decide)
    have hpos := List.length_pos_of_ne_nil hne
    rw [List.length_append]
    omega
  rw [appendCapped_piece, capped, decide_eq_decide.mpr hflag]

/-- The first piece of a body. -/
theorem appendCapped_nil (pre bs post : Bytes) :
    appendCapped (pre ++ (bs ++ post)) pre.length bs.length [] false = some (capped bs) := by
  have happend := @appendCapped_capped [] bs (.inr rfl) pre post
  simpa only [capped_nil, List.nil_append] using happend

/-! ### Chunks -/

/-- The extensions behind a chunk size. -/
def Extension (e : Bytes) : Prop :=
  e = [] ∨ ∃ ws s, e = ws ++ 0x3B :: s ∧ Blank ws ∧ ∀ c ∈ s, InLine c

structure Chunk where
  size : Bytes
  extension : Bytes
  data : Bytes
deriving DecidableEq

def Chunk.line (c : Chunk) : Bytes := c.size ++ c.extension

def Chunk.bytes (c : Chunk) : Bytes := c.line ++ (crlf ++ (c.data ++ crlf))

/-- A chunk line states the length of the chunk. -/
structure Chunk.Ok (c : Chunk) : Prop where
  size : Numeral 16 c.size c.data.length
  extension : Extension c.extension

/-- The chunks and the last chunk, which is empty. -/
def chunksBytes (cs : List Chunk) (last : Chunk) : Bytes :=
  cs.flatMap Chunk.bytes ++ last.bytes

theorem Extension.inLine {e : Bytes} (h : Extension e) : ∀ c ∈ e, InLine c := by
  rcases h with rfl | ⟨ws, s, rfl, hws, hs⟩
  · simp
  · intro c hc
    rcases List.mem_append.mp hc with hc | hc
    · exact blank_inLine hws c hc
    · rcases List.mem_cons.mp hc with rfl | hc
      · decide
      · exact hs c hc

theorem Chunk.Ok.line {c : Chunk} (h : c.Ok) : Line c.line := by
  constructor
  · simp [Chunk.line, h.size.nonempty]
  · intro b hb
    rcases List.mem_append.mp hb with hb | hb
    · exact visible_inLine (h.size.visible (by decide)) b hb
    · exact h.extension.inLine b hb

theorem chunkSize_line {c : Chunk} (h : c.Ok) : chunkSize c.line = min c.data.length (2 ^ 32 - 1) := by
  have hsize : (0x3B : UInt8) ∉ c.size := fun hmem =>
    (digitLike (by decide) (h.size.digits _ hmem)).semicolon rfl
  have htrim : trim (((cut [0x3B] c.line).map Prod.fst).getD c.line) = c.size := by
    rcases h.extension with hnone | ⟨ws, s, hsome, hws, -⟩
    · rw [Chunk.line, hnone, List.append_nil, cut_none hsize]
      exact trim_of_trimmed (h.size.trimmed (by decide))
    · have hfront : (0x3B : UInt8) ∉ c.size ++ ws := by
        rw [List.mem_append, not_or]
        exact ⟨hsize, fun hmem => by rcases hws _ hmem with h | h <;> cases h⟩
      rw [Chunk.line, hsome, ← List.append_assoc, cut_char hfront]
      exact @trim_blanks [] c.size ws (by simp) (blank_le hws) (h.size.trimmed (by decide))
  rw [chunkSize, htrim, h.size.strtoul (by decide)]

/-- A line of the buffer is found and read. -/
theorem findCRLF_line {l : Bytes} (h : ∀ c ∈ l, InLine c) (pre rest : Bytes) :
    findCRLF (pre ++ (l ++ (crlf ++ rest))) pre.length = some (some (pre.length + l.length)) := by
  have hnot : (0x0D : UInt8) ∉ l := fun hmem => (h _ hmem).1 rfl
  unfold findCRLF
  rw [show crlf = 0x0D :: [0x0A] from rfl, findLoop_eq _ _ (Nat.succ_pos _) (by omega),
    List.drop_left, indexOf_line _ hnot, Option.map_some, Nat.add_comm]

theorem slice_front (pre line rest : Bytes) :
    slice (pre ++ (line ++ rest)) pre.length (pre.length + line.length - pre.length) =
      some line := by
  rw [Nat.add_sub_cancel_left]
  exact slice_mid ..

theorem length_line (pre line : Bytes) :
    (pre ++ (line ++ crlf)).length = pre.length + line.length + 2 := by
  rw [List.length_append, List.length_append, ← Nat.add_assoc]
  rfl

theorem matchAt_crlf (pre rest : Bytes) (h : 2 ≤ rest.length) :
    matchAt (pre ++ rest) crlf pre.length = some (decide (crlf <+: rest)) := by
  have hroom : pre.length + crlf.length ≤ (pre ++ rest).length := by
    rw [List.length_append]
    exact Nat.add_le_add_left h _
  rw [matchAt_eq hroom, List.drop_left]

variable {line : Bytes} (hline : ∀ c ∈ line, InLine c) (pre rest : Bytes) (fuel : Nat)

include hline in
/-- A chunk is stored, and the separator behind it is passed over when it is there. -/
theorem chunkLoop_data {data : Bytes} (hsize : chunkSize line = data.length) (hne : data ≠ [])
    (body : Bytes) :
    chunkLoop (pre ++ (line ++ (crlf ++ (data ++ rest)))) (fuel + 1) pre.length (capped body).1
        (capped body).2 =
      chunkLoop (pre ++ (line ++ (crlf ++ (data ++ rest)))) fuel
        ((pre ++ (line ++ (crlf ++ data))).length + if crlf <+: rest then 2 else 0)
        (capped (body ++ data)).1 (capped (body ++ data)).2 := by
  have hpos := List.length_pos_of_ne_nil hne
  have hfind := findCRLF_line hline pre (data ++ rest)
  have hread := slice_front pre line (crlf ++ (data ++ rest))
  have hstart := (length_line pre line).symm
  have hstop : (pre ++ (line ++ crlf)).length + data.length =
      (pre ++ (line ++ (crlf ++ data))).length := by
    simp only [List.length_append]
    omega
  have hstore : appendCapped (pre ++ (line ++ (crlf ++ (data ++ rest))))
      (pre ++ (line ++ crlf)).length data.length (capped body).1 (capped body).2 =
      some (capped (body ++ data)) := by
    have happend := @appendCapped_capped body data (.inl hne) (pre ++ (line ++ crlf)) rest
    rwa [List.append_assoc, List.append_assoc] at happend
  have hroom : ¬(pre ++ (line ++ (crlf ++ data))).length >
      (pre ++ (line ++ (crlf ++ (data ++ rest)))).length := by
    simp only [List.length_append]
    omega
  conv => lhs; unfold chunkLoop
  simp only [hfind, hread, Option.bind_eq_bind, Option.bind_some, hsize, Nat.ne_of_gt hpos,
    if_false, hstart, hstop, hroom, hstore]
  have hrest : pre ++ (line ++ (crlf ++ (data ++ rest))) =
      (pre ++ (line ++ (crlf ++ data))) ++ rest := by
    simp only [List.append_assoc]
  by_cases hlong : 2 ≤ rest.length
  · have hmatch := matchAt_crlf (pre ++ (line ++ (crlf ++ data))) rest hlong
    rw [← hrest] at hmatch
    have hle : (pre ++ (line ++ (crlf ++ data))).length + 2 ≤
        (pre ++ (line ++ (crlf ++ (data ++ rest)))).length := by
      rw [hrest, @List.length_append _ _ rest]
      omega
    rw [if_pos hle, hmatch, Option.bind_some]
    by_cases hsep : crlf <+: rest <;> simp [hsep]
  · have hsep : ¬crlf <+: rest := fun hpre => hlong hpre.length_le
    have hle : ¬(pre ++ (line ++ (crlf ++ data))).length + 2 ≤
        (pre ++ (line ++ (crlf ++ (data ++ rest)))).length := by
      rw [hrest, @List.length_append _ _ rest]
      omega
    rw [if_neg hle, if_neg hsep]
    rfl

include hline in
/-- A size of zero ends the body behind the next line. -/
theorem chunkLoop_last (hsize : chunkSize line = 0) {next : Bytes} (hnext : ∀ c ∈ next, InLine c)
    (body : Bytes) (truncated : Bool) :
    chunkLoop (pre ++ (line ++ (crlf ++ (next ++ (crlf ++ rest))))) (fuel + 1) pre.length body
        truncated =
      some ((pre ++ (line ++ (crlf ++ (next ++ crlf)))).length, body, truncated) := by
  have hfind := findCRLF_line hline pre (next ++ (crlf ++ rest))
  have hread := slice_front pre line (crlf ++ (next ++ (crlf ++ rest)))
  have hfindNext := findCRLF_line hnext (pre ++ (line ++ crlf)) rest
  rw [List.append_assoc, List.append_assoc] at hfindNext
  have hstart := (length_line pre line).symm
  have hstop : (pre ++ (line ++ crlf)).length + next.length + 2 =
      (pre ++ (line ++ (crlf ++ (next ++ crlf)))).length := by
    simp only [List.length_append, crlf, List.length_cons, List.length_nil]
    omega
  unfold chunkLoop
  simp only [hfind, hread, Option.bind_eq_bind, Option.bind_some, hsize, if_true, hstart,
    hfindNext, hstop]

/-- The chunks in front of the last one are stored one after the other. -/
theorem chunkLoop_front {cs : List Chunk} (hcs : ∀ c ∈ cs, c.Ok ∧ c.data ≠ [])
    (hsizes : ∀ c ∈ cs, c.data.length < 2 ^ 32) (pre rest : Bytes) (fuel : Nat) (body : Bytes) :
    chunkLoop (pre ++ (cs.flatMap Chunk.bytes ++ rest)) (fuel + cs.length) pre.length
        (capped body).1 (capped body).2 =
      chunkLoop (pre ++ (cs.flatMap Chunk.bytes ++ rest)) fuel
        (pre ++ cs.flatMap Chunk.bytes).length (capped (body ++ cs.flatMap Chunk.data)).1
        (capped (body ++ cs.flatMap Chunk.data)).2 := by
  induction cs generalizing pre body with
  | nil => simp
  | cons c cs ih =>
    obtain ⟨hc, hne⟩ := hcs c (List.mem_cons_self ..)
    have hsize : chunkSize c.line = c.data.length := by
      have hlt := hsizes c (List.mem_cons_self ..)
      rw [chunkSize_line hc]
      exact Nat.min_eq_left (by omega)
    have hstep := chunkLoop_data hc.line.inLine pre (crlf ++ (cs.flatMap Chunk.bytes ++ rest))
      (fuel + cs.length) hsize hne body
    have hrest := ih (fun k hk => hcs k (List.mem_cons_of_mem _ hk))
      (fun k hk => hsizes k (List.mem_cons_of_mem _ hk)) (pre ++ c.bytes) (body ++ c.data)
    have hlen : (pre ++ (c.line ++ (crlf ++ c.data))).length + 2 = (pre ++ c.bytes).length := by
      simp only [Chunk.bytes, List.length_append, crlf, List.length_cons, List.length_nil]
      omega
    rw [if_pos (List.prefix_append ..), hlen] at hstep
    simp only [List.flatMap_cons, List.length_cons, Chunk.bytes, List.append_assoc] at hstep hrest ⊢
    rw [← Nat.add_assoc, hstep, hrest]

/-- The chunks, and the line behind the last one. -/
theorem chunkLoop_chunks {cs : List Chunk} (hcs : ∀ c ∈ cs, c.Ok ∧ c.data ≠ [])
    (hsizes : ∀ c ∈ cs, c.data.length < 2 ^ 32) {last : Chunk} (hlast : last.Ok)
    (hempty : last.data = []) {next : Bytes} (hnext : ∀ c ∈ next, InLine c) (pre rest : Bytes)
    {fuel : Nat} (hfuel : cs.length < fuel) (body : Bytes) :
    chunkLoop (pre ++ (cs.flatMap Chunk.bytes ++
        (last.line ++ (crlf ++ (next ++ (crlf ++ rest)))))) fuel pre.length (capped body).1
        (capped body).2 =
      some ((pre ++ (cs.flatMap Chunk.bytes ++ (last.line ++ (crlf ++ (next ++ crlf))))).length,
        capped (body ++ cs.flatMap Chunk.data)) := by
  obtain ⟨more, rfl⟩ := Nat.exists_eq_add_of_lt hfuel
  have hzero : chunkSize last.line = 0 := by
    rw [chunkSize_line hlast, hempty]
    rfl
  have hend := chunkLoop_last hlast.line.inLine (pre ++ cs.flatMap Chunk.bytes) rest more hzero hnext
    (capped (body ++ cs.flatMap Chunk.data)).1 (capped (body ++ cs.flatMap Chunk.data)).2
  rw [show cs.length + more + 1 = more + 1 + cs.length by omega, chunkLoop_front hcs hsizes]
  simpa only [List.append_assoc] using hend

theorem chunks_length_le (cs : List Chunk) : cs.length ≤ (cs.flatMap Chunk.bytes).length := by
  induction cs with
  | nil => exact Nat.zero_le _
  | cons c cs ih =>
    have hpos : 2 ≤ c.bytes.length := by
      simp only [Chunk.bytes, List.length_append, crlf, List.length_cons, List.length_nil]
      omega
    rw [List.flatMap_cons, List.length_append, List.length_cons]
    omega

theorem chunksBytes_eq (cs : List Chunk) {last : Chunk} (hempty : last.data = []) (rest : Bytes) :
    chunksBytes cs last ++ rest =
      cs.flatMap Chunk.bytes ++ (last.line ++ (crlf ++ ([] ++ (crlf ++ rest)))) := by
  rw [chunksBytes, Chunk.bytes, hempty]
  simp only [List.append_assoc]

/-! ### Content -/

/-- The content of a message, with the field that announces it. -/
inductive Content
  | absent
  | sized (field : Field) (body : Bytes)
  | chunked (field : Field) (chunks : List Chunk) (last : Chunk)
deriving DecidableEq

namespace Content

def fields : Content → List Field
  | absent => []
  | sized field _ => [field]
  | chunked field _ _ => [field]

def body : Content → Bytes
  | absent => []
  | sized _ body => body
  | chunked _ chunks _ => chunks.flatMap Chunk.data

/-- The content in bytes. -/
def payload : Content → Bytes
  | absent => []
  | sized _ body => body
  | chunked _ chunks last => chunksBytes chunks last

def chunks : Content → List Chunk
  | chunked _ chunks _ => chunks
  | _ => []

inductive Ok : Content → Prop
  | absent : Ok absent
  | sized {field : Field} {body : Bytes} (field_ok : field.Ok)
      (name : lower field.name = text "content-length")
      (value : Numeral 10 field.value body.length) (small : body.length < 2 ^ 32) :
      Ok (sized field body)
  | chunked {field : Field} {chunks : List Chunk} {last : Chunk} (field_ok : field.Ok)
      (name : lower field.name = text "transfer-encoding")
      (value : lower field.value = text "chunked")
      (chunks_ok : ∀ c ∈ chunks, c.Ok ∧ c.data ≠ [])
      (last_ok : last.Ok) (last_empty : last.data = []) : Ok (chunked field chunks last)

theorem Ok.fields {c : Content} (h : c.Ok) : ∀ f ∈ c.fields, f.Ok := by
  intro f hf
  cases h with
  | absent => cases hf
  | sized field_ok => exact List.mem_singleton.mp hf ▸ field_ok
  | chunked field_ok => exact List.mem_singleton.mp hf ▸ field_ok

/-- The header that `HttpFindHeader` gives for the length. -/
def lengthHeader (c : Content) : Option HttpHeader :=
  httpFindHeader (c.fields.map Field.header) (text "Content-Length")

theorem strtoul_sized {field : Field} {body : Bytes} (h : Numeral 10 field.value body.length)
    (small : body.length < 2 ^ 32) : strtoul 10 field.header.value = body.length := by
  have hnumeral := h.strtoul (by decide)
  rwa [Nat.min_eq_left (by omega)] at hnumeral

theorem lengthHeader_sized {field : Field} (h : lower field.name = text "content-length")
    (body : Bytes) : (sized field body).lengthHeader = some field.header := by
  have heq : lower field.header.name = lower (text "Content-Length") := h
  simp [lengthHeader, fields, httpFindHeader, heq]

theorem isChunked_sized {field : Field} (h : lower field.name = text "content-length")
    (body : Bytes) : ((sized field body).fields.map Field.header).any HttpHeader.isChunked = false := by
  have hne : text "content-length" ≠ text "transfer-encoding" := by decide
  simp [fields, HttpHeader.isChunked, Field.header, h, hne]

theorem isChunked_chunked {field : Field} (h : lower field.name = text "transfer-encoding")
    (hvalue : lower field.value = text "chunked") (chunks : List Chunk) (last : Chunk) :
    ((chunked field chunks last).fields.map Field.header).any HttpHeader.isChunked = true := by
  have hfound : (indexOf (text "chunked") (text "chunked")).isSome = true := by decide
  simp [fields, HttpHeader.isChunked, Field.header, h, hvalue, hfound]

/-- The parser stores the chunks and stops behind the line that follows the last one. -/
theorem parseBody_chunked {field : Field} {chunks : List Chunk} {last : Chunk}
    (h : (chunked field chunks last).Ok) {asResponse : Bool}
    (hsizes : ∀ k ∈ chunks, k.data.length < 2 ^ 32) {m : HttpMessage}
    (hchunked : m.chunked = ((chunked field chunks last).fields.map Field.header).any
      HttpHeader.isChunked)
    (hbody : m.body = []) (htruncated : m.bodyTruncated = false) {next : Bytes}
    (hnext : ∀ c ∈ next, InLine c) (pre rest : Bytes) :
    ∃ n, parseBody (pre ++ (chunks.flatMap Chunk.bytes ++
        (last.line ++ (crlf ++ (next ++ (crlf ++ rest)))))) pre.length asResponse m =
      some ({ m with
        body := (capped (chunks.flatMap Chunk.data)).1
        bodyTruncated := (capped (chunks.flatMap Chunk.data)).2
        bodyBytes := n },
        (pre ++ (chunks.flatMap Chunk.bytes ++ (last.line ++ (crlf ++ (next ++ crlf))))).length) := by
  cases h with
  | chunked field_ok name value chunks_ok last_ok last_empty =>
    refine ⟨(capped (chunks.flatMap Chunk.data)).1.length, ?_⟩
    have htrue : m.chunked = true := hchunked.trans (isChunked_chunked name value chunks last)
    have hfuel : chunks.length < (pre ++ (chunks.flatMap Chunk.bytes ++
        (last.line ++ (crlf ++ (next ++ (crlf ++ rest)))))).length + 1 := by
      have hle := chunks_length_le chunks
      simp only [List.length_append]
      omega
    have hloop := chunkLoop_chunks chunks_ok hsizes last_ok last_empty hnext pre rest hfuel []
    rw [capped_nil, List.nil_append] at hloop
    unfold parseBody
    simp only [htrue, hbody, htruncated, hloop, if_true, Option.bind_eq_bind, Option.bind_some]

/-- The parser stores the content and stops behind it. -/
theorem parseBody_content {c : Content} (h : c.Ok) {asResponse : Bool}
    (habsent : c = absent → asResponse = false)
    (hsizes : ∀ k ∈ c.chunks, k.data.length < 2 ^ 32) {m : HttpMessage}
    (hlength : httpFindHeader m.headers (text "Content-Length") = c.lengthHeader)
    (hchunked : m.chunked = (c.fields.map Field.header).any HttpHeader.isChunked)
    (hbody : m.body = []) (htruncated : m.bodyTruncated = false) (pre rest : Bytes) :
    ∃ n, parseBody (pre ++ (c.payload ++ rest)) pre.length asResponse m =
      some ({ m with
        body := (capped c.body).1, bodyTruncated := (capped c.body).2, bodyBytes := n },
        (pre ++ c.payload).length) := by
  cases h with
  | absent =>
    obtain rfl := habsent rfl
    refine ⟨0, ?_⟩
    have hfalse : m.chunked = false := hchunked
    have hnone : httpFindHeader m.headers (text "Content-Length") = none := hlength
    simp [parseBody, hfalse, hnone, payload, body, capped_nil, hbody, htruncated]
  | @sized field body field_ok name value small =>
    refine ⟨body.length, ?_⟩
    have hfalse : m.chunked = false := hchunked.trans (isChunked_sized name body)
    have hsome := hlength.trans (lengthHeader_sized name body)
    have hlen := strtoul_sized value small
    have hstore := appendCapped_nil pre body rest
    have havail : min body.length ((pre ++ (body ++ rest)).length - pre.length) = body.length := by
      rw [List.length_append, List.length_append]
      omega
    unfold parseBody
    simp only [hfalse, hsome, hlen, hbody, htruncated, payload, havail, hstore, Content.body,
      Bool.false_eq_true, if_false, Option.bind_eq_bind, Option.bind_some, Nat.lt_irrefl,
      decide_false, Bool.or_false]
    rw [List.length_append]
  | @chunked field chunks last field_ok name value chunks_ok last_ok last_empty =>
    obtain ⟨n, hparse⟩ := @parseBody_chunked field chunks last
      (.chunked field_ok name value chunks_ok last_ok last_empty) asResponse hsizes m hchunked hbody
      htruncated [] (by simp) pre rest
    refine ⟨n, ?_⟩
    have hend := chunksBytes_eq chunks last_empty []
    simp only [List.append_nil] at hend
    rw [← chunksBytes_eq chunks last_empty rest, ← hend] at hparse
    exact hparse

end Content

end NetDebugger.Http
