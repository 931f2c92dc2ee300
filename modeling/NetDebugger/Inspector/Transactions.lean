import NetDebugger.Http.Sequences
import NetDebugger.Inspector.Https

/-! What `ui.cpp` draws of parsed messages.  It pairs requests with responses by their places alone,
so a request stands beside its own answer as long as the server sends nothing in between. -/

namespace NetDebugger

open Lib Http Tls Capture Pipeline Accounting

/-! ### The widgets -/

/-- The colours of `StatusColor` and `MethodColor`. -/
inductive Shade
  | red
  | orange
  | blue
  | green
  | statusGrey
  | methodGrey
deriving DecidableEq

def statusColor (code : Int) : Shade :=
  if code ≥ 500 then .red
  else if code ≥ 400 then .orange
  else if code ≥ 300 then .blue
  else if code ≥ 200 then .green
  else .statusGrey

def methodColor (m : List UInt8) : Shade :=
  if m = text "GET" then .green
  else if m = text "POST" then .blue
  else if m = text "PUT" ∨ m = text "PATCH" then .orange
  else if m = text "DELETE" then .red
  else .methodGrey

def kTextual : List (List UInt8) :=
  [text "text/", text "application/json", text "application/xml", text "application/javascript",
    text "application/x-www-form-urlencoded", text "application/xhtml", text "+json", text "+xml",
    text "application/graphql"]

def httpIsTextual (ct : List UInt8) : Bool :=
  if ct = [] then false else kTextual.any fun t => (indexOf t ct).isSome

/-- What `DrawBody` shows; a text or a binary body may have a note that it was cut. -/
inductive BodyView
  | encoded (contentEncoding : List UInt8) (size : Nat)
  | empty
  | text (shown : List UInt8) (size : Nat) (truncated : Bool)
  | binary (size : Nat) (contentType : List UInt8) (truncated : Bool)
deriving DecidableEq

/-- `kShow`. -/
def kShow : Nat := 256 * 1024

def drawBody (m : HttpMessage) : BodyView :=
  if m.contentEncoding ≠ [] then .encoded (cString m.contentEncoding) m.body.length
  else if m.body = [] then .empty
  else if httpIsTextual m.contentType ∨ m.contentType = [] then
    .text (m.body.take kShow) m.body.length m.bodyTruncated
  else .binary m.body.length (cString m.contentType) m.bodyTruncated

inductive StartView
  | request (color : Shade) (method target version : List UInt8)
  | response (color : Shade) (statusCode : Int) (statusReason version : List UInt8)
deriving DecidableEq

/-- A message with its trees open. `rows` is the table of `DrawHeadersTable`. -/
structure MessageView where
  start : StartView
  rows : List (List UInt8 × List UInt8)
  bodySize : Nat
  body : BodyView
deriving DecidableEq

def drawHttpMessage (m : HttpMessage) (isReq : Bool) : MessageView where
  start :=
    if isReq then
      .request (methodColor m.method) (cString m.method) (cString m.target) (cString m.version)
    else
      .response (statusColor m.statusCode) m.statusCode (cString m.statusReason)
        (cString m.version)
  rows := m.headers.map fun h => (cString h.name, cString h.value)
  bodySize := m.body.length
  body := drawBody m

structure Transaction where
  tx : List UInt8
  request : Option MessageView
  response : Option MessageView

/-- The label of a transaction, with its dash in UTF-8. -/
def transactionLabel (idp : List UInt8) (i : Nat) : Option HttpMessage → List UInt8
  | some req => snprintf 96 (text "Transaction " ++ decimal (i + 1) ++ text "  " ++
      [0xE2, 0x80, 0x94] ++ text "  " ++ cString req.method ++ text " " ++ cString req.target ++
      text "###" ++ idp ++ decimal i)
  | none => snprintf 96 (text "Transaction " ++ decimal (i + 1) ++ text "###" ++ idp ++ decimal i)

/-- `RenderHttpTransactions` with its headers open. -/
def renderHttpTransactions (idp : List UInt8) (reqs resps : List HttpMessage) :
    List Transaction :=
  (List.range (max reqs.length resps.length)).map fun i =>
    { tx := transactionLabel idp i reqs[i]?
      request := reqs[i]?.map (drawHttpMessage · true)
      response := resps[i]?.map (drawHttpMessage · false) }

theorem renderHttpTransactions_getElem? {idp : List UInt8} {reqs resps : List HttpMessage} {i : Nat}
    (hi : i < reqs.length) :
    ∃ t, (renderHttpTransactions idp reqs resps)[i]? = some t ∧
      t.request = reqs[i]?.map (drawHttpMessage · true) ∧
      t.response = resps[i]?.map (drawHttpMessage · false) := by
  have hrange : (List.range (max reqs.length resps.length))[i]? = some i :=
    List.getElem?_range (Nat.lt_of_lt_of_le hi (Nat.le_max_left ..))
  refine ⟨⟨transactionLabel idp i reqs[i]?, _, _⟩, ?_, rfl, rfl⟩
  rw [renderHttpTransactions, List.getElem?_map, hrange]
  rfl

/-! ### Requests and answers -/

/-- A request, what the server has sent on the way to an answer, and the answer. -/
structure Asked where
  request : Message
  interim : List Block
  answer : Message

/-- A response like `100 Continue`, which is not the answer yet. -/
def Interim (b : Block) : Prop :=
  match b.start with
  | .request .. => False
  | .response _ status _ _ => status < 200

structure Asked.Ok (x : Asked) : Prop where
  request : x.request.Ok false ∧ x.request.Chunks32
  interim : ∀ b ∈ x.interim, b.Ok true ∧ Interim b
  answer : x.answer.Ok true ∧ x.answer.Chunks32

/-- What the two ends say. -/
def saidBy (xs : List Asked) : Party → List UInt8
  | .client => (xs.map Asked.request).flatMap Message.bytes
  | .server => xs.flatMap fun x => x.interim.flatMap Block.bytes ++ x.answer.bytes

/-- The transaction shows the request and its own answer. -/
def Transaction.Answers (t : Transaction) (x : Asked) : Prop :=
  ∃ req resp, x.request.Shown req ∧ x.answer.Shown resp ∧
    t.request = some (drawHttpMessage req true) ∧ t.response = some (drawHttpMessage resp false)

/-! ### The first response that is no answer -/

/-- Up to the first request with something sent before its answer, the server sends answers. -/
theorem saidBy_first {xs : List Asked} (h : ¬∀ x ∈ xs, x.interim = []) :
    ∃ pre x post b rest, xs = pre ++ x :: post ∧ b ∈ x.interim ∧ saidBy xs .server =
      (pre.map Asked.answer).flatMap Message.bytes ++ (b.bytes ++ rest) := by
  induction xs with
  | nil => exact absurd (fun x hx => absurd hx (List.not_mem_nil)) h
  | cons x xs ih =>
    cases hinterim : x.interim with
    | nil =>
      have htail : ¬∀ y ∈ xs, y.interim = [] := fun hall =>
        h (List.forall_mem_cons.mpr ⟨hinterim, hall⟩)
      obtain ⟨pre, y, post, b, rest, rfl, hb, hsaid⟩ := ih htail
      refine ⟨x :: pre, y, post, b, rest, rfl, hb, ?_⟩
      simp only [saidBy] at hsaid ⊢
      rw [List.flatMap_cons, hinterim, hsaid, List.map_cons, List.flatMap_cons, List.flatMap_nil,
        List.nil_append, List.append_assoc]
    | cons b bs =>
      refine ⟨[], x, xs, b, bs.flatMap Block.bytes ++ (x.answer.bytes ++ saidBy xs .server), rfl,
        hinterim ▸ List.mem_cons_self .., ?_⟩
      simp only [saidBy, List.flatMap_cons, hinterim, List.map_nil, List.flatMap_nil,
        List.nil_append, List.append_assoc]

theorem saidBy_answered {xs : List Asked} (h : ∀ x ∈ xs, x.interim = []) :
    saidBy xs .server = (xs.map Asked.answer).flatMap Message.bytes := by
  induction xs with
  | nil => rfl
  | cons x xs ih =>
    obtain ⟨hx, hxs⟩ := List.forall_mem_cons.mp h
    have hsaid := ih hxs
    simp only [saidBy] at hsaid ⊢
    rw [List.flatMap_cons, hx, hsaid, List.map_cons, List.flatMap_cons, List.flatMap_nil,
      List.nil_append]

theorem interim_status {b : Block} (hb : Interim b) {q : HttpMessage} (hq : b.start.Shown q) :
    q.statusCode < 200 := by
  unfold Interim at hb
  cases hstart : b.start with
  | request _ _ _ =>
    rw [hstart] at hb
    exact hb.elim
  | response version status code reason =>
    rw [hstart] at hb hq
    have hcode := hq.2.2.1
    have hlow : status < 200 := hb
    omega

theorem answer_status {m : Message} (hm : m.Ok true) {p : HttpMessage} (hp : m.Shown p) :
    200 ≤ p.statusCode := by
  have hstart := hm.start
  have hstatus := hm.status
  have hshown := hp.start
  cases hline : m.start with
  | request _ _ _ =>
    rw [hline] at hstart
    cases hstart
  | response version status code reason =>
    rw [hline] at hstatus hshown
    have hcode := hshown.2.2.1
    have hnot : ¬(status < 200 ∨ status = 204 ∨ status = 304) := of_decide_eq_false hstatus
    omega

theorem shown_getElem? {ms : List Message} {ps : List HttpMessage}
    (h : List.Forall₂ Message.Shown ms ps) {i : Nat} {m : Message} (hm : ms[i]? = some m) :
    ∃ p, ps[i]? = some p ∧ m.Shown p := by
  induction h generalizing i with
  | nil => contradiction
  | cons hshown _ ih =>
    cases i with
    | zero =>
      obtain rfl := Option.some.inj hm
      exact ⟨_, rfl, hshown⟩
    | succ i => exact ih hm

/-! ### The HTTP tab -/

section

variable {utf8ToUtf16 : List UInt8 → List UInt16} {utf16ToUtf8 : List UInt16 → List UInt8}
  {A : Gcm} {H : Hmac}

/-- What the HTTP tab of a frame draws. -/
def Ui.transactions (u : Ui) : List Transaction :=
  renderHttpTransactions (text "http") u.http.value.reqs u.http.value.resps

end

/-- `HTTP/1.1 100 Continue`. -/
def continueBlock : Block := ⟨.response (text "HTTP/1.1") 100 (text "100") (text "Continue"), []⟩

/-- A server that answers, and perhaps says to go on first. -/
def askedOnce (interim : List Block) : List Asked :=
  [⟨rootRequest, interim, chunkedResponse [abcChunk]⟩]

theorem askedOnce_ok {interim : List Block} (h : ∀ b ∈ interim, b.Ok true ∧ Interim b) :
    ∀ x ∈ askedOnce interim, x.Ok := by
  simp only [askedOnce, List.forall_mem_singleton]
  exact
    { request := rootTalk_ok.requests _ (List.mem_cons_self ..)
      interim := h
      answer := rootTalk_ok.responses _ (List.mem_cons_self ..) }

theorem continueBlock_ok : continueBlock.Ok true ∧ Interim continueBlock := by
  refine ⟨⟨.response ⟨0x31, by decide, by decide, rfl⟩ ⟨by decide, by decide, by decide⟩
    (by decide) (by decide) (by decide) (by decide), nofun⟩, ?_⟩
  show 100 < 200
  decide

/-- After a frame of the Raw tab, the HTTP tab shows the answer exactly where nothing was sent before
it. -/
def ShowsAnswer (interim : List Block) : Prop :=
  ∃ u t u', runEvents (withHistory (Ui.step sumGcm cutHmac asciiToUtf8) Trail.after)
      (Ui.init, Trail.start) (ingests asciiToUtf16 (talkCalls (saidBy (askedOnce interim))) ++
        [.select 7, .payloadCap 1, .frame (some .raw)]) = some (u, t) ∧
    u.step sumGcm cutHmac asciiToUtf8 (.frame (some .http)) = some u' ∧
    ((∀ (i : Nat) (x : Asked), (askedOnce interim)[i]? = some x → ∃ t : Transaction,
      u'.transactions[i]? = some t ∧ t.Answers x) ↔ interim = [])

end NetDebugger
