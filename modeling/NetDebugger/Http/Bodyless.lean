import NetDebugger.Http.RoundTrip
import NetDebugger.Http.Total

/-! Streams with responses that have no body by their status.  The parser has no rule for these: it
looks at their headers, and without a length it takes the rest of the stream for their body. -/

namespace NetDebugger.Http

open Lib

/-- A response with its content, or one without a body, whatever its fields. -/
inductive Response
  | framed (m : Message)
  | bodyless (b : Block)
deriving DecidableEq

namespace Response

def block : Response → Block
  | framed m => m.block
  | bodyless b => b

def bytes : Response → Bytes
  | framed m => m.bytes
  | bodyless b => b.bytes

def payload : Response → Bytes
  | framed m => m.content.payload
  | bodyless _ => []

def body : Response → Bytes
  | framed m => m.body
  | bodyless _ => []

inductive Ok : Response → Prop
  | framed {m : Message} (h : m.Ok true) : Ok (framed m)
  | bodyless {b : Block} (h : b.Ok true) (status : b.start.bodyless = true) : Ok (bodyless b)

/-- The parsed message is the response, with all of its body. -/
structure Shown (r : Response) (p : HttpMessage) : Prop where
  valid : p.valid = true
  start : r.block.start.Shown p
  headers : p.headers = r.block.headers
  body : p.body = r.body

/-- Where each message ends is where its bytes end. -/
inductive Returned : Nat → List Response → List HttpMessage → Prop
  | nil {off : Nat} : Returned off [] []
  | cons {off : Nat} {r : Response} {p : HttpMessage} {rs : List Response} {ps : List HttpMessage}
      (shown : r.Shown p) (ends : p.consumed = off + r.bytes.length)
      (rest : Returned (off + r.bytes.length) rs ps) : Returned off (r :: rs) (p :: ps)

/-- The response is no bodyless one that is announced in chunks. -/
def Unchunked : Response → Prop
  | framed _ => True
  | bodyless b => b.headers.any HttpHeader.isChunked = false

end Response

/-- The headers state a length of zero. -/
def Block.StatesZero (b : Block) : Prop :=
  b.headers.any HttpHeader.isChunked = false ∧
    ∃ cl, httpFindHeader b.headers (text "Content-Length") = some cl ∧ strtoul 10 cl.value = 0

/-- The parser leaves alone what follows the response. -/
def Response.Separate : Response → Prop
  | framed _ => True
  | bodyless b => b.StatesZero

def AllButLast (P : Response → Prop) : List Response → Prop
  | [] => True
  | r :: rs => (rs = [] ∨ P r) ∧ AllButLast P rs

/-! ### The body of a bodyless response -/

/-- The length that the parser takes for the body, of what follows the head. -/
def taken (m : HttpMessage) (rest : Bytes) : Nat :=
  match httpFindHeader m.headers (text "Content-Length") with
  | some cl => min (strtoul 10 cl.value) rest.length
  | none => rest.length

theorem taken_le (m : HttpMessage) (rest : Bytes) : taken m rest ≤ rest.length := by
  unfold taken
  split
  · exact Nat.min_le_right ..
  · exact Nat.le_refl _

theorem parseBody_taken {m : HttpMessage} (hchunked : m.chunked = false) (hempty : Bodyless m)
    (pre rest : Bytes) :
    ∃ q, parseBody (pre ++ rest) pre.length true m = some (q, pre.length + taken m rest) ∧
      q.body = (rest.take (taken m rest)).take kMaxBody := by
  have hlen : (pre ++ rest).length - pre.length = rest.length := by
    rw [List.length_append, Nat.add_sub_cancel_left]
  have hstore (n : Nat) (hn : n ≤ rest.length) : appendCapped (pre ++ rest) pre.length n [] false =
      some (capped (rest.take n)) := by
    have happend := appendCapped_nil pre (rest.take n) (rest.drop n)
    rwa [List.take_append_drop, List.length_take, Nat.min_eq_left hn] at happend
  unfold parseBody
  rw [if_neg (by rw [hchunked]; decide), hempty.1, hempty.2, hlen]
  cases hcl : httpFindHeader m.headers (text "Content-Length") with
  | some cl =>
    have htaken : taken m rest = min (strtoul 10 cl.value) rest.length := by
      unfold taken
      rw [hcl]
    simp only [← htaken, hstore _ (taken_le m rest), Option.bind_eq_bind, Option.bind_some]
    exact ⟨_, rfl, rfl⟩
  | none =>
    have htaken : taken m rest = rest.length := by
      unfold taken
      rw [hcl]
    have hend : (pre ++ rest).length = pre.length + taken m rest := by
      rw [List.length_append, htaken]
    simp only [← htaken, hstore _ (taken_le m rest), Option.bind_eq_bind, Option.bind_some,
      if_true, hend]
    exact ⟨_, rfl, rfl⟩

theorem taken_eq_zero {b : Block} {m : HttpMessage} (h : b.Stored m) {rest : Bytes}
    (hrest : rest ≠ []) :
    m.chunked = false ∧ taken m rest = 0 ↔ b.StatesZero := by
  have hpos := List.length_pos_of_ne_nil hrest
  unfold taken Block.StatesZero
  rw [h.chunked, h.headers]
  cases httpFindHeader b.headers (text "Content-Length") with
  | some cl =>
    simp only [Option.some.injEq, exists_eq_left']
    refine and_congr_right fun _ => ⟨fun hmin => ?_, fun hzero => ?_⟩
    · omega
    · rw [hzero, Nat.zero_min]
  | none => simp [hrest]

theorem Block.Stored.bodyless {b : Block} {m : HttpMessage} (h : b.Stored m) : Bodyless m :=
  ⟨h.body, h.truncated⟩

/-- A response that states its zero length, or the last one, gets no body. -/
theorem parseBody_separate {b : Block} {m : HttpMessage} (h : b.Stored m) {rest : Bytes}
    (hsep : rest = [] ∨ b.StatesZero) (pre : Bytes) :
    ∃ q, parseBody (pre ++ rest) pre.length true m = some (q, pre.length) ∧ q.body = [] := by
  by_cases hrest : rest = []
  · subst hrest
    obtain ⟨q, stop, hbody, hq⟩ := @parseBody_total (pre ++ []) pre.length (by simp) true m
    rw [List.append_nil] at hbody hq ⊢
    have hstop : stop = pre.length := Nat.le_antisymm hq.high hq.low
    have hspent := hq.spent
    rw [h.body, hstop, Nat.sub_self] at hspent
    rw [hstop] at hbody
    exact ⟨q, hbody, List.eq_nil_of_length_eq_zero (Nat.le_zero.mp hspent)⟩
  · obtain ⟨hchunked, hzero⟩ := (taken_eq_zero h hrest).mpr (hsep.resolve_left hrest)
    obtain ⟨q, hbody, hq⟩ := parseBody_taken hchunked h.bodyless pre rest
    rw [hzero, Nat.add_zero] at hbody
    rw [hzero, List.take_zero, List.take_nil] at hq
    exact ⟨q, hbody, hq⟩

/-! ### Enough -/

/-- Every body keeps to the cap, and nothing follows a bodyless response that does not state a length
of zero. -/
structure Harmless (rs : List Response) : Prop where
  small : ∀ r ∈ rs, r.body.length ≤ kMaxBody
  separate : AllButLast Response.Separate rs

theorem Message.chunks32_of_small {m : Message} (h : m.body.length ≤ kMaxBody) : m.Chunks32 := by
  intro c hc
  have hle : c.data.length ≤ m.body.length := by
    cases hcontent : m.content with
    | absent => rw [hcontent] at hc; cases hc
    | sized => rw [hcontent] at hc; cases hc
    | chunked field chunks last =>
      rw [hcontent] at hc
      rw [Message.body, hcontent]
      exact (List.sublist_flatten_of_mem (List.mem_map_of_mem hc)).length_le
  have hcap : kMaxBody < 2 ^ 32 := by decide
  omega

theorem Response.Ok.block {r : Response} (h : r.Ok) : r.block.Ok true := by
  cases h with
  | framed h => exact h.block
  | bodyless h => exact h

theorem reads_responses {rs : List Response} (hrs : ∀ r ∈ rs, r.Ok) (h : Harmless rs)
    (pre : Bytes) :
    ∃ ps, Response.Returned pre.length rs ps ∧
      Reads (pre ++ rs.flatMap Response.bytes) true pre.length ps := by
  induction rs generalizing pre with
  | nil =>
    refine ⟨[], .nil, ?_⟩
    rw [List.flatMap_nil, List.append_nil]
    exact .done (Nat.le_refl _) (by simp)
  | cons r rs ih =>
    have hsmall := h.small r (List.mem_cons_self ..)
    obtain ⟨hseparate, hnext⟩ := h.separate
    obtain ⟨ps, hall, hrest⟩ := ih (fun k hk => hrs k (List.mem_cons_of_mem _ hk))
      ⟨fun k hk => h.small k (List.mem_cons_of_mem _ hk), hnext⟩ (pre ++ r.bytes)
    rw [List.append_assoc] at hrest
    rw [List.length_append] at hall
    cases hrs r (List.mem_cons_self ..) with
    | @framed m hm =>
      obtain ⟨p, hshown, hends, hreads⟩ := Reads.sent hm (Message.chunks32_of_small hsmall) hrest
      rw [List.length_append] at hends
      have hbody : p.body = m.body := by
        rw [hshown.body]
        exact List.take_of_length_le hsmall
      exact ⟨p :: ps, .cons ⟨hshown.valid, hshown.start, hshown.headers, hbody⟩ hends hall, hreads⟩
    | @bodyless b hb status =>
      have hstored := hb.stored
      have hsep : rs.flatMap Response.bytes = [] ∨ b.StatesZero := by
        rcases hseparate with rfl | hzero
        · exact .inl rfl
        · exact .inr hzero
      obtain ⟨q, hbody, hempty⟩ := parseBody_separate hstored hsep (pre ++ b.bytes)
      obtain ⟨body, t, n, hhead⟩ := (parseBody_bodied (by simp) hbody).head
      rw [List.append_assoc] at hbody
      have hadvance : pre.length < (pre ++ b.bytes).length := by
        have hpos := hb.bytes_pos
        rw [List.length_append]
        omega
      have hreads := Reads.block hb (by rwa [← List.length_append]) hadvance hrest
      refine ⟨q.done (pre ++ b.bytes).length :: ps,
        .cons ⟨rfl, ?_, ?_, hempty⟩ List.length_append hall, hreads⟩
      · rw [hhead]
        exact hstored.start.done ..
      · rw [hhead]
        exact hstored.headers

/-! ### No less -/

/-- A round of the loop at a head: the body decides where the next round starts. -/
theorem httpParseLoop_block {b : Block} {asResponse : Bool} (h : b.Ok asResponse)
    (pre rest : Bytes) {out : List HttpMessage} (hroom : out.length < kMaxMessages) (fuel : Nat) :
    ∃ q stop,
      parseBody (pre ++ (b.bytes ++ rest)) (pre.length + b.bytes.length) asResponse b.message =
        some (q, stop) ∧
      Bodied (pre ++ (b.bytes ++ rest)) (pre.length + b.bytes.length) b.message q stop ∧
      httpParseLoop (pre ++ (b.bytes ++ rest)) asResponse (fuel + 1) pre.length out =
        httpParseLoop (pre ++ (b.bytes ++ rest)) asResponse fuel stop (out ++ [q.done stop]) := by
  have hin : pre.length + b.bytes.length ≤ (pre ++ (b.bytes ++ rest)).length := by
    simp only [List.length_append]
    omega
  obtain ⟨q, stop, hbody, hq⟩ := parseBody_total hin asResponse b.message
  obtain ⟨c, t, hhead, hc⟩ := h.head
  have hstart : (pre ++ (b.bytes ++ rest))[pre.length]? = some c := by
    rw [getElem?_mid_zero, hhead]
    rfl
  have hpos := h.bytes_pos
  have hlow := hq.low
  have hparse := parseOne_block h pre rest
  rw [hbody, Option.map_some] at hparse
  refine ⟨q, stop, hbody, hq, ?_⟩
  rw [httpParseLoop_start hstart hc hroom, hparse, Option.bind_some]
  exact if_neg (by simp only; omega)

theorem Response.bytes_eq (r : Response) : r.bytes = r.block.bytes ++ r.payload := by
  cases r with
  | framed m => rfl
  | bodyless b => exact (List.append_nil _).symm

theorem Response.Ok.bytes_pos {r : Response} (h : r.Ok) : 0 < r.bytes.length := by
  rw [r.bytes_eq, List.length_append]
  exact Nat.add_pos_left h.block.bytes_pos _

/-- A bodyless response that keeps to its bytes in front of another one states a length of zero. -/
theorem statesZero_of_parseBody {b : Block} {m q : HttpMessage} (h : b.Stored m) {pre rest : Bytes}
    (hrest : rest ≠ []) {stop : Nat}
    (hbody : parseBody (pre ++ rest) pre.length true m = some (q, stop))
    (hkept : stop = pre.length ∨ m.chunked = false ∧ q.body = []) : b.StatesZero := by
  have hpos := List.length_pos_of_ne_nil hrest
  have hin : pre.length < (pre ++ rest).length := by
    rw [List.length_append]
    omega
  have hchunked : m.chunked = false := by
    rcases hkept with hstop | hkept
    · by_contra hchunked
      obtain ⟨r, hchunks⟩ := chunks_exists (Nat.le_of_lt hin) m.body m.bodyTruncated
      have hforward := (hchunks.stored (Nat.le_of_lt hin)).forward hin
      have hloop := (chunkLoop_iff (Nat.le_of_lt hin)).mpr hchunks
      unfold parseBody at hbody
      rw [if_pos (Bool.eq_true_of_not_eq_false hchunked), hloop] at hbody
      have hend : r.1 = stop := (Prod.mk.inj (Option.some.inj hbody)).2
      omega
    · exact hkept.1
  obtain ⟨q', htaken, hq'⟩ := parseBody_taken hchunked h.bodyless pre rest
  rw [hbody] at htaken
  obtain ⟨rfl, rfl⟩ := Prod.mk.inj (Option.some.inj htaken)
  apply (taken_eq_zero h hrest).mp
  refine ⟨hchunked, ?_⟩
  rcases hkept with hstop | hkept
  · omega
  · have hlen := congrArg List.length (hq'.symm.trans hkept.2)
    have hle := taken_le m rest
    have hcap : 0 < kMaxBody := by decide
    simp only [List.length_take, List.length_nil] at hlen
    omega

theorem separate_of_parseBody {r : Response} (hok : r.Ok) (hsmall : r.body.length ≤ kMaxBody)
    {pre rest : Bytes} (hrest : rest ≠ []) {q : HttpMessage} {stop : Nat}
    (hbody : parseBody (pre ++ (r.block.bytes ++ (r.payload ++ rest)))
      (pre.length + r.block.bytes.length) true r.block.message = some (q, stop))
    (hkept : stop = pre.length + r.bytes.length ∨ r.Unchunked ∧ q.body = r.body) :
    r.Separate ∧ stop = (pre ++ r.bytes).length := by
  cases hok with
  | @framed m hm =>
    obtain ⟨q', hsent, -⟩ := parseBody_sent hm (Message.chunks32_of_small hsmall) pre rest
    have heq := hbody.symm.trans hsent
    exact ⟨trivial, (Prod.mk.inj (Option.some.inj heq)).2⟩
  | @bodyless b hb status =>
    have hbody' : parseBody (pre ++ b.bytes ++ rest) (pre ++ b.bytes).length true b.message =
        some (q, stop) := by
      rw [List.append_assoc, List.length_append]
      exact hbody
    have hzero : b.StatesZero := by
      apply statesZero_of_parseBody hb.stored hrest hbody'
      rw [List.length_append, hb.stored.chunked]
      exact hkept
    obtain ⟨q', hsep, -⟩ := parseBody_separate hb.stored (.inr hzero) (pre ++ b.bytes)
    have heq := hbody'.symm.trans hsep
    exact ⟨hzero, (Prod.mk.inj (Option.some.inj heq)).2⟩

/-- What a run returns decides it: a response whose body is stored whole keeps to the cap, and one
that keeps to its bytes is separate. -/
theorem harmless_of_loop {rs : List Response} (hrs : ∀ r ∈ rs, r.Ok) {pre : Bytes} {fuel : Nat}
    (hfuel : (pre ++ rs.flatMap Response.bytes).length < fuel + pre.length)
    {out ps : List HttpMessage} (hroom : out.length + rs.length ≤ kMaxMessages)
    (hloop : httpParseLoop (pre ++ rs.flatMap Response.bytes) true fuel pre.length out =
      some (out ++ ps))
    (hshown : List.Forall₂ Response.Shown rs ps)
    (hkept : Response.Returned pre.length rs ps ∨ AllButLast Response.Unchunked rs) :
    Harmless rs := by
  induction hshown generalizing pre fuel out with
  | nil => exact ⟨by simp, trivial⟩
  | @cons r p rs ps hr hall ih =>
    have hok := hrs r (List.mem_cons_self ..)
    have hpos := hok.bytes_pos
    rw [List.length_cons] at hroom
    have hwhole : pre ++ (r :: rs).flatMap Response.bytes =
        pre ++ (r.block.bytes ++ (r.payload ++ rs.flatMap Response.bytes)) := by
      rw [List.flatMap_cons, r.bytes_eq, List.append_assoc]
    have hlen : (pre ++ (r :: rs).flatMap Response.bytes).length =
        pre.length + r.bytes.length + (rs.flatMap Response.bytes).length := by
      rw [List.flatMap_cons, List.length_append, List.length_append, Nat.add_assoc]
    obtain ⟨fuel, rfl⟩ := Nat.exists_eq_succ_of_ne_zero (show fuel ≠ 0 by omega)
    obtain ⟨q, stop, hbody, hq, hround⟩ := httpParseLoop_block hok.block pre
      (r.payload ++ rs.flatMap Response.bytes) (show out.length < kMaxMessages by omega) fuel
    have hlow := hq.low
    have hblock := hok.block.bytes_pos
    rw [hwhole, hround] at hloop
    -- the message of this round is the first one behind `out`
    obtain rfl : p = q.done stop :=
      httpParseLoop_first hq.high (show _ < fuel + stop by rw [← hwhole]; omega) hloop
    have hsmall : r.body.length ≤ kMaxBody := by
      rw [← hr.body]
      apply hq.capped
      rw [hok.block.stored.body]
      exact Nat.zero_le _
    by_cases hrest : rs = []
    · subst hrest
      refine ⟨?_, .inl rfl, trivial⟩
      intro k hk
      rwa [List.mem_singleton.mp hk]
    have hne : rs.flatMap Response.bytes ≠ [] := by
      obtain ⟨k, ks, rfl⟩ := List.exists_cons_of_ne_nil hrest
      have hk := (hrs k (by simp)).bytes_pos
      exact List.ne_nil_of_length_pos (by rw [List.flatMap_cons, List.length_append]; omega)
    have hkeeps : stop = pre.length + r.bytes.length ∨ r.Unchunked ∧ q.body = r.body := by
      rcases hkept with hkept | hkept
      · cases hkept with
        | cons shown ends rest => exact .inl ends
      · exact .inr ⟨hkept.1.resolve_left hrest, hr.body⟩
    obtain ⟨hseparate, hstop⟩ := separate_of_parseBody hok hsmall hne hbody hkeeps
    have hnext : Response.Returned (pre ++ r.bytes).length rs ps ∨
        AllButLast Response.Unchunked rs := by
      rcases hkept with hkept | hkept
      · cases hkept with
        | cons shown ends rest => exact .inl (by rwa [List.length_append])
      · exact .inr hkept.2
    have hpieces : pre ++ (r.block.bytes ++ (r.payload ++ rs.flatMap Response.bytes)) =
        pre ++ r.bytes ++ rs.flatMap Response.bytes := by
      rw [r.bytes_eq, List.append_assoc, List.append_assoc]
    rw [hpieces, hstop, List.append_cons out _ ps] at hloop
    rw [hwhole, hpieces] at hlen hfuel
    have hnextRoom : (out ++ [q.done (pre ++ r.bytes).length]).length + rs.length ≤
        kMaxMessages := by
      simp only [List.length_append, List.length_cons, List.length_nil]
      omega
    have hnextFuel : (pre ++ r.bytes ++ rs.flatMap Response.bytes).length <
        fuel + (pre ++ r.bytes).length := by
      rw [hlen] at hfuel ⊢
      rw [List.length_append]
      omega
    have hharmless := ih (fun k hk => hrs k (List.mem_cons_of_mem _ hk)) hnextFuel hnextRoom hloop
      hnext
    exact ⟨List.forall_mem_cons.mpr ⟨hsmall, hharmless.small⟩, .inr hseparate, hharmless.separate⟩

/-! ### Exactly -/

theorem Response.Returned.shown {off : Nat} {rs : List Response} {ps : List HttpMessage}
    (h : Response.Returned off rs ps) : List.Forall₂ Response.Shown rs ps := by
  induction h with
  | nil => exact .nil
  | cons shown ends rest ih => exact .cons shown ih

theorem harmless_of_httpParse {rs : List Response} (hrs : ∀ r ∈ rs, r.Ok)
    (hmany : rs.length ≤ kMaxMessages) {ps : List HttpMessage}
    (hparse : httpParse (rs.flatMap Response.bytes) true = some ps)
    (hshown : List.Forall₂ Response.Shown rs ps)
    (hkept : Response.Returned 0 rs ps ∨ AllButLast Response.Unchunked rs) : Harmless rs := by
  by_cases hnil : rs.flatMap Response.bytes = []
  · cases rs with
    | nil => exact ⟨by simp, trivial⟩
    | cons r rs =>
      have hpos := (hrs r (List.mem_cons_self ..)).bytes_pos
      have hlen := congrArg List.length hnil
      rw [List.flatMap_cons, List.length_append, List.length_nil] at hlen
      omega
  · unfold httpParse at hparse
    rw [if_neg hnil] at hparse
    have hfuel : (rs.flatMap Response.bytes).length < (rs.flatMap Response.bytes).length + 1 + 0 :=
      Nat.lt_succ_self _
    exact @harmless_of_loop rs hrs [] _ hfuel [] ps (by simpa using hmany) hparse hshown hkept

/-- The responses are returned with their bodies, and none takes from the next, exactly when every
body keeps to the cap and every bodyless response in front of another one states a length of zero.
Where no bodyless response is announced in chunks, it is enough that they are returned. -/
theorem httpParse_bodyless {rs : List Response} (hrs : ∀ r ∈ rs, r.Ok)
    (hmany : rs.length ≤ kMaxMessages) :
    ((∃ ps, httpParse (rs.flatMap Response.bytes) true = some ps ∧ Response.Returned 0 rs ps) ↔
      Harmless rs) ∧
    (AllButLast Response.Unchunked rs →
      ((∃ ps, httpParse (rs.flatMap Response.bytes) true = some ps ∧
        List.Forall₂ Response.Shown rs ps) ↔ Harmless rs)) := by
  have henough (h : Harmless rs) :
      ∃ ps, httpParse (rs.flatMap Response.bytes) true = some ps ∧ Response.Returned 0 rs ps := by
    obtain ⟨ps, hall, hreads⟩ := reads_responses hrs h []
    have hlen := hall.shown.length_eq
    exact ⟨ps, httpParse_reads hreads (by omega), hall⟩
  refine ⟨⟨?_, henough⟩, fun hunchunked => ⟨?_, fun h => ?_⟩⟩
  · rintro ⟨ps, hparse, hall⟩
    exact harmless_of_httpParse hrs hmany hparse hall.shown (.inl hall)
  · rintro ⟨ps, hparse, hall⟩
    exact harmless_of_httpParse hrs hmany hparse hall (.inr hunchunked)
  · obtain ⟨ps, hparse, hall⟩ := henough h
    exact ⟨ps, hparse, hall.shown⟩

/-- `HTTP/1.1 304 Not Modified` with the fields. -/
def notModified (fields : List Field) : Response :=
  .bodyless ⟨.response (text "HTTP/1.1") 304 (text "304") (text "Not Modified"), fields⟩

theorem notModified_ok {fields : List Field} (h : ∀ f ∈ fields, f.Ok) :
    (notModified fields).Ok := by
  refine .bodyless ⟨?_, h⟩ rfl
  exact .response ⟨0x31, by decide, by decide, rfl⟩ ⟨by decide, by decide, by decide⟩ rfl (by decide)
    (by decide) (by decide)

def hello : Response := .framed (sizedResponse (text "5") (text "hello"))

theorem hello_ok : hello.Ok :=
  .framed (sizedResponse_ok ⟨by decide, by decide, by decide⟩ (by decide))

/-- A bodyless response that states its zero length, and a response behind it. -/
theorem httpParse_bodyless_zero :
    ((∃ ps, httpParse ([notModified [lengthField (text "0")], hello].flatMap Response.bytes) true =
        some ps ∧ Response.Returned 0 [notModified [lengthField (text "0")], hello] ps) ↔
      Harmless [notModified [lengthField (text "0")], hello]) ∧
    (AllButLast Response.Unchunked [notModified [lengthField (text "0")], hello] →
      ((∃ ps, httpParse ([notModified [lengthField (text "0")], hello].flatMap Response.bytes)
          true = some ps ∧
        List.Forall₂ Response.Shown [notModified [lengthField (text "0")], hello] ps) ↔
      Harmless [notModified [lengthField (text "0")], hello])) := by
  apply httpParse_bodyless
  · have hzero : Numeral 10 (text "0") 0 := ⟨by decide, by decide, by decide⟩
    simp only [List.forall_mem_cons, List.not_mem_nil, false_implies, implies_true, and_true]
    exact ⟨notModified_ok (by simpa using lengthField_ok hzero), hello_ok⟩
  · decide

/-- A bodyless response without a length takes the next one for its body. -/
theorem httpParse_swallows :
    (∀ r ∈ [notModified [], hello], r.Ok) ∧
    ¬∃ ps, httpParse ([notModified [], hello].flatMap Response.bytes) true = some ps ∧
      List.Forall₂ Response.Shown [notModified [], hello] ps := by
  constructor
  · simp only [List.forall_mem_cons, List.not_mem_nil, false_implies, implies_true, and_true]
    exact ⟨notModified_ok (by simp), hello_ok⟩
  · rintro ⟨ps, hparse, hall⟩
    have hone : (httpParse ([notModified [], hello].flatMap Response.bytes) true).map List.length =
        some 1 := by
      decide +kernel
    rw [hparse, Option.map_some, ← hall.length_eq] at hone
    cases hone

end NetDebugger.Http
