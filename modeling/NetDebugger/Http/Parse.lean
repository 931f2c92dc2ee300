import NetDebugger.Http.Text

/-! `http_parse.cpp`: messages in a captured stream.  The buffer is read at checked indices; `none`
is an access out of bounds or a loop that does not end.  Texts that were copied out of the buffer
are taken apart as lists. -/

namespace NetDebugger.Http

open Lib

def kMaxMessages : Nat := 64
def kMaxBody : Nat := 2 ^ 20

structure HttpHeader where
  name : Bytes
  value : Bytes
deriving DecidableEq

structure HttpMessage where
  isRequest : Bool
  valid : Bool
  method : Bytes
  target : Bytes
  version : Bytes
  statusCode : Int
  statusReason : Bytes
  headers : List HttpHeader
  body : Bytes
  chunked : Bool
  bodyTruncated : Bool
  bodyBytes : Nat
  contentType : Bytes
  contentEncoding : Bytes
  consumed : Nat
deriving DecidableEq

def HttpMessage.empty : HttpMessage where
  isRequest := false
  valid := false
  method := []
  target := []
  version := []
  statusCode := 0
  statusReason := []
  headers := []
  body := []
  chunked := false
  bodyTruncated := false
  bodyBytes := 0
  contentType := []
  contentEncoding := []
  consumed := 0

/-- `HttpFindHeader`. -/
def httpFindHeader (headers : List HttpHeader) (name : Bytes) : Option HttpHeader :=
  headers.find? fun h => lower h.name = lower name

/-! ### Reading the buffer -/

def findCRLF (d : Bytes) (off : Nat) : Option (Option Nat) :=
  findLoop crlf d (d.length + 1) off

def findDoubleCRLF (d : Bytes) (off : Nat) : Option (Option Nat) :=
  findLoop (crlf ++ crlf) d (d.length + 1) off

def looksLikeStartLine (d : Bytes) (off : Nat) (asResponse : Bool) : Option Bool :=
  if off ≥ d.length then some false
  else if asResponse then
    if off + 5 ≤ d.length then (slice d off 5).map (· = text "HTTP/") else some false
  else d[off]?.map isalpha

/-- `AppendCapped` of the `len` bytes at `off`. -/
def appendCapped (d : Bytes) (off len : Nat) (body : Bytes) (truncated : Bool) :
    Option (Bytes × Bool) :=
  if body.length ≥ kMaxBody then some (body, true)
  else
    let take := min len (kMaxBody - body.length)
    (slice d off take).map fun bs => (body ++ bs, truncated || decide (take < len))

/-! ### The start line and the headers -/

/-- A text up to its first pattern, and behind it. -/
def cut (pat s : Bytes) : Option (Bytes × Bytes) :=
  (indexOf pat s).map fun i => (s.take i, s.drop (i + pat.length))

/-- A line of the head and what follows it. -/
def cutLine (s : Bytes) : Bytes × Bytes := (cut crlf s).getD (s, [])

def parseStatusLine (line : Bytes) (m : HttpMessage) : Option HttpMessage := do
  let (version, rest) ← cut [0x20] line
  let (code, reason) := (cut [0x20] rest).getD (rest, [])
  let statusCode := atoi code
  if statusCode < 100 ∨ statusCode > 599 then none
  else some { m with version, statusCode, statusReason := reason }

def parseRequestLine (line : Bytes) (m : HttpMessage) : Option HttpMessage := do
  let (method, rest) ← cut [0x20] line
  let (target, version) ← cut [0x20] rest
  if version.take 5 ≠ text "HTTP/" then none else some { m with method, target, version }

def parseStartLine (asResponse : Bool) (line : Bytes) (m : HttpMessage) : Option HttpMessage :=
  if asResponse then parseStatusLine line m else parseRequestLine line m

/-- What a header line does to the message. -/
def addHeader (line : Bytes) (m : HttpMessage) : HttpMessage :=
  match cut [0x3A] line with
  | none => m
  | some (name, value) =>
    let h : HttpHeader := ⟨trim name, trim value⟩
    let ln := lower h.name
    let m :=
      if ln = text "content-type" then { m with contentType := lower h.value }
      else if ln = text "content-encoding" then { m with contentEncoding := lower h.value }
      else if ln = text "transfer-encoding" ∧ (indexOf (text "chunked") (lower h.value)).isSome then
        { m with chunked := true }
      else m
    { m with headers := m.headers ++ [h] }

/-- The loop over the header lines. An empty line ends it. -/
def parseHeaders : Nat → Bytes → HttpMessage → Option HttpMessage
  | 0, _, _ => none
  | fuel + 1, head, m =>
    if head = [] then some m
    else
      let (line, rest) := cutLine head
      if line = [] then some m else parseHeaders fuel rest (addHeader line m)

/-! ### The body -/

/-- The size that a chunk line states, in front of the extensions. -/
def chunkSize (sizeLine : Bytes) : Nat :=
  strtoul 16 (trim (((cut [0x3B] sizeLine).map Prod.fst).getD sizeLine))

/-- The loop over the chunks: the end of the body, the body, and whether it was truncated. -/
def chunkLoop (d : Bytes) : Nat → Nat → Bytes → Bool → Option (Nat × Bytes × Bool)
  | 0, _, _, _ => none
  | fuel + 1, p, body, truncated => do
    match ← findCRLF d p with
    | none => some (d.length, body, true)
    | some le =>
      let sizeLine ← slice d p (le - p)
      let chunk := chunkSize sizeLine
      let p := le + 2
      if chunk = 0 then
        -- trailers are not read: the line behind the last chunk ends the message
        match ← findCRLF d p with
        | none => some (d.length, body, truncated)
        | some stop => some (stop + 2, body, truncated)
      else if p + chunk > d.length then
        let (body, truncated) ← appendCapped d p (d.length - p) body truncated
        some (d.length, body, truncated)
      else
        let (body, truncated) ← appendCapped d p chunk body truncated
        let p := p + chunk
        if p + 2 ≤ d.length then
          let separated ← matchAt d crlf p
          chunkLoop d fuel (if separated then p + 2 else p) body truncated
        else chunkLoop d fuel p body truncated

/-- The body of the message that starts at `bodyStart`, and where it ends. -/
def parseBody (d : Bytes) (bodyStart : Nat) (asResponse : Bool) (m : HttpMessage) :
    Option (HttpMessage × Nat) :=
  if m.chunked then do
    let (off, body, truncated) ← chunkLoop d (d.length + 1) bodyStart m.body m.bodyTruncated
    some ({ m with body, bodyTruncated := truncated, bodyBytes := body.length }, off)
  else
    match httpFindHeader m.headers (text "Content-Length") with
    | some cl => do
      let len := strtoul 10 cl.value
      let take := min len (d.length - bodyStart)
      let (body, truncated) ← appendCapped d bodyStart take m.body m.bodyTruncated
      some ({ m with
        body
        bodyTruncated := truncated || decide (take < len)
        bodyBytes := take }, bodyStart + take)
    | none =>
      if asResponse then do
        -- no length: to the end of the captured data
        let (body, truncated) ←
          appendCapped d bodyStart (d.length - bodyStart) m.body m.bodyTruncated
        some ({ m with body, bodyTruncated := truncated, bodyBytes := d.length - bodyStart },
          d.length)
      else some ({ m with bodyBytes := 0 }, bodyStart)

/-- `ParseOne`. The message that starts at `off`, and where it ends. -/
def parseOne (d : Bytes) (off : Nat) (asResponse : Bool) : Option (Option (HttpMessage × Nat)) := do
  if !(← looksLikeStartLine d off asResponse) then some none
  else
    match ← findDoubleCRLF d off with
    | none => some none
    | some hdrEnd =>
      let head ← slice d off (hdrEnd - off)
      let (startLine, rest) := cutLine head
      let m := { HttpMessage.empty with isRequest := !asResponse }
      match parseStartLine asResponse startLine m with
      | none => some none
      | some m =>
        let m ← parseHeaders (head.length + 1) rest m
        let (m, stop) ← parseBody d (hdrEnd + 4) asResponse m
        some (some ({ m with valid := true, consumed := stop }, stop))

/-! ### The stream -/

/-- Blank separators are skipped. -/
def skipBlank (d : Bytes) : Nat → Nat → Option Nat
  | 0, _ => none
  | fuel + 1, off =>
    if off < d.length then do
      let c ← d[off]?
      if c = 0x0D ∨ c = 0x0A then skipBlank d fuel (off + 1) else some off
    else some off

theorem skipBlank_at {d : Bytes} {off : Nat} (hoff : off < d.length) (fuel : Nat) :
    skipBlank d (fuel + 1) off =
      if d[off] = 0x0D ∨ d[off] = 0x0A then skipBlank d fuel (off + 1) else some off := by
  rw [skipBlank, if_pos hoff, List.getElem?_eq_getElem hoff, Option.bind_eq_bind, Option.bind_some]

theorem skipBlank_end {d : Bytes} {off : Nat} (hoff : ¬off < d.length) (fuel : Nat) :
    skipBlank d (fuel + 1) off = some off := by
  rw [skipBlank, if_neg hoff]

/-- The loop of `HttpParse`. -/
def httpParseLoop (d : Bytes) (asResponse : Bool) :
    Nat → Nat → List HttpMessage → Option (List HttpMessage)
  | 0, _, _ => none
  | fuel + 1, off, out =>
    if off < d.length ∧ out.length < kMaxMessages then do
      let start ← skipBlank d (d.length + 1) off
      if start ≥ d.length then some out
      else
        match ← parseOne d start asResponse with
        | none => some out
        | some (m, stop) =>
          if stop ≤ start then some (out ++ [m])
          else httpParseLoop d asResponse fuel stop (out ++ [m])
    else some out

/-- `HttpParse`. -/
def httpParse (buf : Bytes) (asResponse : Bool) : Option (List HttpMessage) :=
  if buf = [] then some [] else httpParseLoop buf asResponse (buf.length + 1) 0 []

end NetDebugger.Http
