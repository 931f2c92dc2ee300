import NetDebugger.Http.Parse

/-! Well-formed messages as they are sent, and what `ParseOne` makes of their head: the start line,
the header fields with their optional blanks, and the blank line. -/

namespace NetDebugger.Http

open Lib

/-- A byte of a line. -/
def InLine (c : UInt8) : Prop := c ≠ 0x0D ∧ c ≠ 0x0A

instance (c : UInt8) : Decidable (InLine c) := by
  unfold InLine
  infer_instance

/-- A byte of a token. -/
def isToken (c : UInt8) : Bool :=
  isalpha c || decide (0x30 ≤ c ∧ c ≤ 0x39) || (text "!#$%&'*+-.^_`|~").contains c

def Blank (ws : Bytes) : Prop := ∀ c ∈ ws, c = 0x20 ∨ c = 0x09

/-- A header field. The blanks around the value are the sender's choice. -/
structure Field where
  name : Bytes
  value : Bytes
  before : Bytes
  after : Bytes
deriving DecidableEq

structure Field.Ok (f : Field) : Prop where
  name : f.name ≠ [] ∧ ∀ c ∈ f.name, isToken c = true
  value : ∀ c ∈ f.value, InLine c
  trimmed : Trimmed f.value
  before : Blank f.before
  after : Blank f.after

def Field.line (f : Field) : Bytes := f.name ++ 0x3A :: (f.before ++ (f.value ++ f.after))

def Field.header (f : Field) : HttpHeader := ⟨f.name, f.value⟩

/-- `HTTP/1.x`. -/
def Version (v : Bytes) : Prop := ∃ minor, 0x30 ≤ minor ∧ minor ≤ 0x39 ∧ v = text "HTTP/1." ++ [minor]

/-- `code` is the status in digits. -/
inductive StartLine
  | request (method target version : Bytes)
  | response (version : Bytes) (status : Nat) (code reason : Bytes)
deriving DecidableEq

def StartLine.line : StartLine → Bytes
  | .request method target version => method ++ 0x20 :: (target ++ 0x20 :: version)
  | .response version _ code reason => version ++ 0x20 :: (code ++ 0x20 :: reason)

/-- A start line of a request, or of a response. -/
inductive StartLine.Ok : StartLine → Bool → Prop
  | request {method target version : Bytes}
      (letter : ∃ c rest, method = c :: rest ∧ isalpha c = true)
      (method_token : ∀ c ∈ method, isToken c = true)
      (target_ne : target ≠ [])
      (target_line : ∀ c ∈ target, InLine c ∧ c ≠ 0x20)
      (version_ok : Version version) : Ok (.request method target version) false
  | response {version : Bytes} {status : Nat} {code reason : Bytes}
      (version_ok : Version version)
      (code_ok : Numeral 10 code status) (code_length : code.length = 3)
      (status_low : 100 ≤ status) (status_high : status ≤ 599)
      (reason_line : ∀ c ∈ reason, InLine c) : Ok (.response version status code reason) true

/-- What the parser stores of a start line. -/
def StartLine.stored : StartLine → HttpMessage
  | .request method target version =>
    { HttpMessage.empty with isRequest := true, method, target, version }
  | .response version status _ reason =>
    { HttpMessage.empty with
      isRequest := false, version, statusCode := status, statusReason := reason }

/-- The parsed message has the start line. -/
def StartLine.Shown : StartLine → HttpMessage → Prop
  | .request method target version, p =>
    p.isRequest = true ∧ p.method = method ∧ p.target = target ∧ p.version = version
  | .response version status _ reason, p =>
    p.isRequest = false ∧ p.version = version ∧ p.statusCode = status ∧ p.statusReason = reason

/-- The lines of a head, with a separator between them. -/
def joinLines : List Bytes → Bytes
  | [] => []
  | [l] => l
  | l :: ls => l ++ (crlf ++ joinLines ls)

/-- The head of a message. -/
structure Block where
  start : StartLine
  fields : List Field
deriving DecidableEq

structure Block.Ok (b : Block) (asResponse : Bool) : Prop where
  start : b.start.Ok asResponse
  fields : ∀ f ∈ b.fields, f.Ok

def Block.lines (b : Block) : List Bytes := b.start.line :: b.fields.map Field.line

def Block.bytes (b : Block) : Bytes := joinLines b.lines ++ (crlf ++ crlf)

def Block.headers (b : Block) : List HttpHeader := b.fields.map Field.header

/-! ### Lines -/

/-- A line of a head. -/
structure Line (l : Bytes) : Prop where
  nonempty : l ≠ []
  inLine : ∀ c ∈ l, InLine c

theorem Line.not_mem {l : Bytes} (h : Line l) : (0x0D : UInt8) ∉ l := fun hmem =>
  (h.inLine _ hmem).1 rfl

theorem joinLines_cons_cons (l l' : Bytes) (ls : List Bytes) :
    joinLines (l :: l' :: ls) = l ++ (crlf ++ joinLines (l' :: ls)) := rfl

theorem joinLines_starts (l : Bytes) (ls : List Bytes) : ∃ t, joinLines (l :: ls) = l ++ t := by
  cases ls with
  | nil => exact ⟨[], (List.append_nil l).symm⟩
  | cons l' ls => exact ⟨_, joinLines_cons_cons l l' ls⟩

theorem joinLines_cons_length (l : Bytes) (ls : List Bytes) :
    (joinLines ls).length + l.length ≤ (joinLines (l :: ls)).length := by
  cases ls with
  | nil => simp [joinLines]
  | cons l' ls =>
    rw [joinLines_cons_cons, List.length_append, List.length_append]
    omega

theorem joinLines_head {l : Bytes} (h : Line l) (ls : List Bytes) (t : Bytes) :
    ∃ c rest, joinLines (l :: ls) ++ t = c :: rest ∧ InLine c := by
  obtain ⟨rest, hrest⟩ := joinLines_starts l ls
  obtain ⟨c, l, rfl⟩ := List.exists_cons_of_ne_nil h.nonempty
  rw [hrest]
  exact ⟨c, l ++ rest ++ t, rfl, h.inLine c (List.mem_cons_self ..)⟩

/-- The blank line is found behind the last line. -/
theorem indexOf_blank {ls : List Bytes} (hls : ∀ l ∈ ls, Line l) (hne : ls ≠ []) (t : Bytes) :
    indexOf (crlf ++ crlf) (joinLines ls ++ (crlf ++ crlf ++ t)) =
      some (joinLines ls).length := by
  induction ls with
  | nil => exact absurd rfl hne
  | cons l ls ih =>
    have hl := hls l (List.mem_cons_self ..)
    cases ls with
    | nil => exact indexOf_line [0x0A, 0x0D, 0x0A] hl.not_mem t
    | cons l' ls =>
      have hrest := ih (fun k hk => hls k (List.mem_cons_of_mem _ hk)) (by simp)
      obtain ⟨c, rest, hhead, hc⟩ := joinLines_head (hls l' (by simp)) ls (crlf ++ crlf ++ t)
      -- the separator is not the blank line: what follows it begins no separator
      have hfirst : ¬crlf ++ crlf <+: 0x0D :: 0x0A :: c :: rest := by
        intro hpre
        have hthird := (List.cons_prefix_cons.mp (List.cons_prefix_cons.mp hpre).2).2
        exact hc.1 (List.cons_prefix_cons.mp hthird).1.symm
      have hsecond : ¬crlf ++ crlf <+: 0x0A :: c :: rest := not_isPrefix_of_head (by decide)
      rw [hhead] at hrest
      rw [joinLines_cons_cons, List.append_assoc, List.append_assoc, hhead]
      show indexOf (crlf ++ crlf) (l ++ 0x0D :: 0x0A :: c :: rest) = _
      rw [show crlf ++ crlf = 0x0D :: [0x0A, 0x0D, 0x0A] from rfl, indexOf_append _ hl.not_mem,
        ← show crlf ++ crlf = 0x0D :: [0x0A, 0x0D, 0x0A] from rfl, indexOf_cons hfirst,
        indexOf_cons hsecond, hrest]
      simp only [Option.map_some, List.length_append]
      exact congrArg some (by simp [crlf]; omega)

/-- A line is cut off a head. -/
theorem cutLine_join {l : Bytes} (hl : Line l) (ls : List Bytes) :
    cutLine (joinLines (l :: ls)) = (l, joinLines ls) := by
  unfold cutLine cut
  cases ls with
  | nil =>
    have hnone : indexOf crlf l = none := indexOf_eq_none_of_not_mem [0x0A] hl.not_mem
    rw [show joinLines [l] = l from rfl, hnone]
    rfl
  | cons l' ls =>
    have hsome : indexOf crlf (l ++ (crlf ++ joinLines (l' :: ls))) = some l.length :=
      indexOf_line [0x0A] hl.not_mem _
    rw [joinLines_cons_cons, hsome]
    simp only [Option.map_some, Option.getD_some, List.take_left]
    rw [← List.append_assoc, ← List.length_append, List.drop_left]

theorem cut_char {c : UInt8} {s : Bytes} (h : c ∉ s) (t : Bytes) :
    cut [c] (s ++ c :: t) = some (s, t) := by
  have hfind : indexOf [c] (s ++ ([c] ++ t)) = some s.length := indexOf_line [] h t
  unfold cut
  rw [show s ++ c :: t = s ++ ([c] ++ t) from rfl, hfind, Option.map_some, List.take_left,
    ← List.append_assoc, ← List.length_append, List.drop_left]

theorem cut_none {c : UInt8} {s : Bytes} (h : c ∉ s) : cut [c] s = none := by
  unfold cut
  rw [indexOf_eq_none_of_not_mem [] h]
  rfl

/-- The header lines are taken one after the other. -/
theorem parseHeaders_lines {ls : List Bytes} (hls : ∀ l ∈ ls, Line l) {fuel : Nat}
    (hfuel : (joinLines ls).length < fuel) (m : HttpMessage) :
    parseHeaders fuel (joinLines ls) m =
      some (ls.foldl (fun m line => addHeader line m) m) := by
  induction ls generalizing fuel m with
  | nil =>
    obtain ⟨fuel, rfl⟩ := Nat.exists_eq_succ_of_ne_zero (Nat.ne_of_gt (Nat.zero_lt_of_lt hfuel))
    rfl
  | cons l ls ih =>
    obtain ⟨fuel, rfl⟩ := Nat.exists_eq_succ_of_ne_zero (Nat.ne_of_gt (Nat.zero_lt_of_lt hfuel))
    have hl := hls l (List.mem_cons_self ..)
    have hpos : 0 < l.length := List.length_pos_of_ne_nil hl.nonempty
    have hshorter := joinLines_cons_length l ls
    have hne : joinLines (l :: ls) ≠ [] := by
      intro hnil
      rw [hnil, List.length_nil] at hshorter
      omega
    unfold parseHeaders
    rw [if_neg hne, cutLine_join hl]
    simp only
    rw [if_neg hl.nonempty, ih (fun k hk => hls k (List.mem_cons_of_mem _ hk)) (by omega)]
    rfl

/-! ### Fields -/

theorem isalpha_range {c : UInt8} (h : isalpha c = true) : 0x41 ≤ c.toNat ∧ c.toNat ≤ 0x7A := by
  simp only [isalpha, decide_eq_true_eq, UInt8.le_iff_toNat_le, UInt8.reduceToNat] at h
  omega

theorem isToken_visible {c : UInt8} (h : isToken c = true) : 0x20 < c ∧ c ≠ 0x3A := by
  have hmarks : ∀ b ∈ text "!#$%&'*+-.^_`|~", 0x20 < b ∧ b ≠ 0x3A := by decide
  have hrange : (0x20 < c.toNat ∧ c.toNat ≠ 0x3A) → 0x20 < c ∧ c ≠ 0x3A := by
    rintro ⟨hlow, hne⟩
    refine ⟨UInt8.lt_iff_toNat_lt.mpr hlow, ?_⟩
    rintro rfl
    exact hne rfl
  simp only [isToken, Bool.or_eq_true, decide_eq_true_eq] at h
  rcases h with (h | h) | h
  · have hc := isalpha_range h
    exact hrange (by omega)
  · simp only [UInt8.le_iff_toNat_le, UInt8.reduceToNat] at h
    exact hrange (by omega)
  · exact hmarks c (List.contains_iff_mem.mp h)

theorem blank_le {ws : Bytes} (h : Blank ws) : ∀ c ∈ ws, c ≤ 0x20 := by
  intro c hc
  rcases h c hc with rfl | rfl <;> decide

theorem blank_inLine {ws : Bytes} (h : Blank ws) : ∀ c ∈ ws, InLine c := by
  intro c hc
  rcases h c hc with rfl | rfl <;> decide

theorem Field.Ok.line {f : Field} (h : f.Ok) : Line f.line := by
  constructor
  · simp [Field.line]
  · intro c hc
    simp only [Field.line, List.mem_append, List.mem_cons] at hc
    rcases hc with hc | rfl | hc | hc | hc
    · have hvisible := (isToken_visible (h.name.2 c hc)).1
      constructor <;> rintro rfl <;> exact absurd hvisible (by decide)
    · decide
    · exact blank_inLine h.before c hc
    · exact h.value c hc
    · exact blank_inLine h.after c hc

/-- What a well-formed field does to the message. -/
def addField (f : HttpHeader) (m : HttpMessage) : HttpMessage :=
  let ln := lower f.name
  let m :=
    if ln = text "content-type" then { m with contentType := lower f.value }
    else if ln = text "content-encoding" then { m with contentEncoding := lower f.value }
    else if ln = text "transfer-encoding" ∧ (indexOf (text "chunked") (lower f.value)).isSome then
      { m with chunked := true }
    else m
  { m with headers := m.headers ++ [f] }

theorem Field.Ok.addHeader {f : Field} (h : f.Ok) (m : HttpMessage) :
    addHeader f.line m = addField f.header m := by
  have hname : Trimmed f.name :=
    ⟨fun c hc => (isToken_visible (h.name.2 c (List.mem_of_mem_head? hc))).1,
      fun c hc => (isToken_visible (h.name.2 c (List.mem_of_mem_getLast? hc))).1⟩
  have hcolon : (0x3A : UInt8) ∉ f.name := fun hmem => (isToken_visible (h.name.2 _ hmem)).2 rfl
  have hvalue := trim_blanks (blank_le h.before) (blank_le h.after) h.trimmed
  unfold Http.addHeader Field.line
  rw [cut_char hcolon]
  simp only [trim_of_trimmed hname, hvalue]
  rfl

/-- The field announces a chunked body. -/
def HttpHeader.isChunked (f : HttpHeader) : Bool :=
  decide (lower f.name = text "transfer-encoding") &&
    (indexOf (text "chunked") (lower f.value)).isSome

theorem addField_eq (f : HttpHeader) (m : HttpMessage) : ∃ ct ce, addField f m =
    { m with
      headers := m.headers ++ [f], chunked := m.chunked || f.isChunked
      contentType := ct, contentEncoding := ce } := by
  have hnot (h : lower f.name ≠ text "transfer-encoding") : f.isChunked = false := by
    unfold HttpHeader.isChunked
    rw [decide_eq_false h, Bool.false_and]
  dsimp only [addField]
  by_cases h1 : lower f.name = text "content-type"
  · refine ⟨lower f.value, m.contentEncoding, ?_⟩
    rw [hnot (by rw [h1]; decide), Bool.or_false, if_pos h1]
  by_cases h2 : lower f.name = text "content-encoding"
  · refine ⟨m.contentType, lower f.value, ?_⟩
    rw [hnot (by rw [h2]; decide), Bool.or_false, if_neg h1, if_pos h2]
  refine ⟨m.contentType, m.contentEncoding, ?_⟩
  rw [if_neg h1, if_neg h2]
  by_cases h3 : lower f.name = text "transfer-encoding" ∧
      (indexOf (text "chunked") (lower f.value)).isSome
  · have hyes : f.isChunked = true := by
      unfold HttpHeader.isChunked
      rw [decide_eq_true h3.1, h3.2]
      rfl
    rw [if_pos h3, hyes, Bool.or_true]
  · have hno : f.isChunked = false := by
      simpa [HttpHeader.isChunked] using h3
    rw [if_neg h3, hno, Bool.or_false]

/-- What the fields do to the message. -/
theorem foldl_addHeader {fs : List Field} (hfs : ∀ f ∈ fs, f.Ok) (m : HttpMessage) :
    ∃ ct ce, (fs.map Field.line).foldl (fun m line => addHeader line m) m =
      { m with
        headers := m.headers ++ fs.map Field.header
        chunked := m.chunked || (fs.map Field.header).any HttpHeader.isChunked
        contentType := ct, contentEncoding := ce } := by
  induction fs generalizing m with
  | nil => exact ⟨m.contentType, m.contentEncoding, by simp⟩
  | cons f fs ih =>
    obtain ⟨ct, ce, hfield⟩ := addField_eq f.header m
    obtain ⟨ct', ce', hrest⟩ := ih (fun g hg => hfs g (List.mem_cons_of_mem _ hg))
      (addField f.header m)
    refine ⟨ct', ce', ?_⟩
    rw [List.map_cons, List.foldl_cons, (hfs f (List.mem_cons_self ..)).addHeader, hrest, hfield]
    simp only [List.map_cons, List.any_cons, List.append_assoc, List.singleton_append,
      Bool.or_assoc]

/-! ### The start line -/

theorem Version.visible {v : Bytes} (h : Version v) : ∀ c ∈ v, 0x20 < c := by
  obtain ⟨minor, hlow, -, rfl⟩ := h
  intro c hc
  rcases List.mem_append.mp hc with hc | hc
  · exact (by decide : ∀ c ∈ text "HTTP/1.", 0x20 < c) c hc
  · obtain rfl := List.mem_singleton.mp hc
    exact Nat.lt_of_lt_of_le (by decide : (0x20 : UInt8).toNat < 0x30) hlow

theorem Version.starts {v : Bytes} (h : Version v) : ∃ rest, v = text "HTTP/" ++ rest := by
  obtain ⟨minor, -, -, rfl⟩ := h
  exact ⟨[0x31, 0x2E, minor], rfl⟩

theorem Version.take {v : Bytes} (h : Version v) : v.take 5 = text "HTTP/" := by
  obtain ⟨rest, rfl⟩ := h.starts
  rfl

theorem visible_inLine {s : Bytes} (h : ∀ c ∈ s, 0x20 < c) : ∀ c ∈ s, InLine c := by
  intro c hc
  have hvisible := h c hc
  constructor <;> rintro rfl <;> exact absurd hvisible (by decide)

theorem visible_space {s : Bytes} (h : ∀ c ∈ s, 0x20 < c) : (0x20 : UInt8) ∉ s :=
  fun hmem => absurd (h _ hmem) (by decide)

theorem Numeral.visible {base : Nat} {s : Bytes} {v : Nat} (h : Numeral base s v)
    (hbase : base ≤ 16) : ∀ c ∈ s, 0x20 < c := fun c hc => (digitLike hbase (h.digits c hc)).visible

theorem inLine_spaced {s t : Bytes} (hs : ∀ c ∈ s, InLine c) (ht : ∀ c ∈ t, InLine c) :
    ∀ c ∈ s ++ 0x20 :: t, InLine c := by
  intro c hc
  rcases List.mem_append.mp hc with hc | hc
  · exact hs c hc
  · rcases List.mem_cons.mp hc with rfl | hc
    · decide
    · exact ht c hc

theorem StartLine.Ok.line {s : StartLine} {asResponse : Bool} (h : s.Ok asResponse) :
    Line s.line := by
  constructor
  · cases s <;> simp [StartLine.line]
  · cases h with
    | request _ hmethod _ htarget hversion =>
      apply inLine_spaced
      · exact visible_inLine fun c hc => (isToken_visible (hmethod c hc)).1
      · exact inLine_spaced (fun c hc => (htarget c hc).1) (visible_inLine hversion.visible)
    | response hversion hcode _ _ _ hreason =>
      apply inLine_spaced
      · exact visible_inLine hversion.visible
      · exact inLine_spaced (visible_inLine (hcode.visible (by decide))) hreason

theorem parseStartLine_line {s : StartLine} {asResponse : Bool} (h : s.Ok asResponse) :
    parseStartLine asResponse s.line { HttpMessage.empty with isRequest := !asResponse } =
      some s.stored := by
  cases h with
  | request _ hmethod _ htarget hversion =>
    have hspace := visible_space fun c hc => (isToken_visible (hmethod c hc)).1
    have htarget : (0x20 : UInt8) ∉ _ := fun hmem => (htarget _ hmem).2 rfl
    simp only [parseStartLine, parseRequestLine, StartLine.line, Bool.false_eq_true, if_false,
      cut_char hspace, cut_char htarget, Option.bind_eq_bind, Option.bind_some, hversion.take,
      ne_eq, not_true_eq_false]
    rfl
  | response hversion hcode _ hlow hhigh _ =>
    have hspace := visible_space hversion.visible
    have hcodeSpace := visible_space (hcode.visible (by decide))
    have hatoi := hcode.atoi (by omega)
    simp only [parseStartLine, parseStatusLine, StartLine.line, if_true, cut_char hspace,
      cut_char hcodeSpace, Option.bind_eq_bind, Option.bind_some, Option.getD_some, hatoi]
    rw [if_neg (by omega)]
    rfl

theorem looksLikeStartLine_line {s : StartLine} {asResponse : Bool} (h : s.Ok asResponse)
    (pre t : Bytes) :
    looksLikeStartLine (pre ++ (s.line ++ t)) pre.length asResponse = some true := by
  have hpos : 0 < s.line.length := List.length_pos_of_ne_nil h.line.nonempty
  unfold looksLikeStartLine
  rw [if_neg (by simp only [List.length_append]; omega)]
  cases h with
  | request hletter _ _ _ _ =>
    obtain ⟨c, rest, rfl, hc⟩ := hletter
    rw [if_neg (by decide), getElem?_mid_zero]
    exact congrArg some hc
  | @response version status code reason hversion _ _ _ _ _ =>
    obtain ⟨rest, hrest⟩ := hversion.starts
    have hfive := slice_mid pre (text "HTTP/") (rest ++ (0x20 :: (code ++ 0x20 :: reason) ++ t))
    rw [StartLine.line, hrest, List.append_assoc, List.append_assoc]
    have hlen : pre.length + 5 ≤ (pre ++ (text "HTTP/" ++
        (rest ++ (0x20 :: (code ++ 0x20 :: reason) ++ t)))).length := by
      simp only [List.length_append]
      show pre.length + 5 ≤ pre.length + (5 + _)
      omega
    rw [if_pos rfl, if_pos hlen]
    have hfive' : slice _ pre.length 5 = some (text "HTTP/") := hfive
    rw [hfive']
    rfl

/-! ### The head -/

/-- What the head stores. -/
def Block.message (b : Block) : HttpMessage :=
  (b.fields.map Field.line).foldl (fun m line => addHeader line m) b.start.stored

theorem Block.bytes_length (b : Block) : b.bytes.length = (joinLines b.lines).length + 4 := by
  simp [Block.bytes, crlf]

/-- The lines in front of a blank line are read as a head, when the first is a start line. -/
theorem parseOne_lines {l : Bytes} {ls : List Bytes} (hl : Line l) (hls : ∀ k ∈ ls, Line k)
    {asResponse looks : Bool} {pre rest : Bytes}
    (hlooks : looksLikeStartLine (pre ++ (joinLines (l :: ls) ++ (crlf ++ crlf ++ rest))) pre.length
      asResponse = some looks) :
    parseOne (pre ++ (joinLines (l :: ls) ++ (crlf ++ crlf ++ rest))) pre.length asResponse =
      if looks = false then some none
      else
        match parseStartLine asResponse l { HttpMessage.empty with isRequest := !asResponse } with
        | none => some none
        | some m =>
          (parseBody (pre ++ (joinLines (l :: ls) ++ (crlf ++ crlf ++ rest)))
            (pre.length + ((joinLines (l :: ls)).length + 4)) asResponse
            (ls.foldl (fun m line => addHeader line m) m)).map fun r =>
              some ({ r.1 with valid := true, consumed := r.2 }, r.2) := by
  have hblank : findDoubleCRLF (pre ++ (joinLines (l :: ls) ++ (crlf ++ crlf ++ rest))) pre.length =
      some (some ((joinLines (l :: ls)).length + pre.length)) := by
    unfold findDoubleCRLF
    rw [show crlf ++ crlf = 0x0D :: [0x0A, 0x0D, 0x0A] from rfl,
      findLoop_eq _ _ (Nat.succ_pos _) (by omega), List.drop_left]
    rw [show 0x0D :: [0x0A, 0x0D, 0x0A] = crlf ++ crlf from rfl,
      indexOf_blank (List.forall_mem_cons.mpr ⟨hl, hls⟩) (by simp)]
    rfl
  have hhead : slice (pre ++ (joinLines (l :: ls) ++ (crlf ++ crlf ++ rest))) pre.length
      ((joinLines (l :: ls)).length + pre.length - pre.length) = some (joinLines (l :: ls)) := by
    rw [Nat.add_sub_cancel]
    exact slice_mid ..
  have hheaders (m : HttpMessage) : parseHeaders ((joinLines (l :: ls)).length + 1) (joinLines ls) m =
      some (ls.foldl (fun m line => addHeader line m) m) := by
    have hlength := joinLines_cons_length l ls
    have hpos := List.length_pos_of_ne_nil hl.nonempty
    apply parseHeaders_lines hls
    omega
  have hbody : (joinLines (l :: ls)).length + pre.length + 4 =
      pre.length + ((joinLines (l :: ls)).length + 4) := by
    omega
  unfold parseOne
  rw [hlooks]
  cases looks with
  | false => rfl
  | true =>
    simp only [Option.bind_eq_bind, Option.bind_some, Bool.not_true, Bool.false_eq_true, if_false,
      hblank, hhead, cutLine_join hl, hheaders, hbody, Bool.true_eq_false]
    cases parseStartLine asResponse l { HttpMessage.empty with isRequest := !asResponse } with
    | none => rfl
    | some m =>
      simp only
      cases parseBody (pre ++ (joinLines (l :: ls) ++ (crlf ++ crlf ++ rest)))
        (pre.length + ((joinLines (l :: ls)).length + 4)) asResponse
        (ls.foldl (fun m line => addHeader line m) m) <;> rfl

/-- The parser goes through a head to the body behind it. -/
theorem parseOne_block {b : Block} {asResponse : Bool} (h : b.Ok asResponse) (pre rest : Bytes) :
    parseOne (pre ++ (b.bytes ++ rest)) pre.length asResponse =
      (parseBody (pre ++ (b.bytes ++ rest)) (pre.length + b.bytes.length) asResponse
        b.message).map fun r => some ({ r.1 with valid := true, consumed := r.2 }, r.2) := by
  have hlines : ∀ l ∈ b.fields.map Field.line, Line l := by
    intro l hl
    obtain ⟨f, hf, rfl⟩ := List.mem_map.mp hl
    exact (h.fields f hf).line
  have hsplit : b.bytes ++ rest = joinLines b.lines ++ (crlf ++ crlf ++ rest) := by
    rw [Block.bytes, List.append_assoc]
  have hstart : looksLikeStartLine (pre ++ (joinLines b.lines ++ (crlf ++ crlf ++ rest))) pre.length
      asResponse = some true := by
    obtain ⟨t, ht⟩ := joinLines_starts b.start.line (b.fields.map Field.line)
    rw [Block.lines, ht, List.append_assoc]
    exact looksLikeStartLine_line h.start ..
  have hparse := parseOne_lines h.start.line hlines hstart
  rw [if_neg (by decide), parseStartLine_line h.start] at hparse
  rw [hsplit, b.bytes_length]
  exact hparse

/-- The parsed message has the head, and nothing of a body yet. -/
structure Block.Stored (b : Block) (p : HttpMessage) : Prop where
  start : b.start.Shown p
  headers : p.headers = b.headers
  chunked : p.chunked = b.headers.any HttpHeader.isChunked
  body : p.body = []
  truncated : p.bodyTruncated = false

theorem Block.Ok.stored {b : Block} {asResponse : Bool} (h : b.Ok asResponse) :
    b.Stored b.message := by
  obtain ⟨ct, ce, hfields⟩ := foldl_addHeader h.fields b.start.stored
  rw [Block.message, hfields]
  constructor <;> cases b.start <;> simp [StartLine.stored, StartLine.Shown, HttpMessage.empty,
    Block.headers]

theorem StartLine.Shown.done {s : StartLine} {p : HttpMessage} (h : s.Shown p) (body : Bytes)
    (truncated : Bool) (n stop : Nat) :
    s.Shown { p with
      valid := true, body, bodyTruncated := truncated, bodyBytes := n, consumed := stop } := by
  cases s <;> exact h

/-- A message begins with a byte of a line. -/
theorem Block.Ok.head {b : Block} {asResponse : Bool} (h : b.Ok asResponse) :
    ∃ c rest, b.bytes = c :: rest ∧ InLine c := joinLines_head h.start.line _ _

theorem Block.Ok.bytes_pos {b : Block} {asResponse : Bool} (h : b.Ok asResponse) :
    0 < b.bytes.length := by
  obtain ⟨c, t, hhead, -⟩ := h.head
  rw [hhead]
  exact Nat.succ_pos _

end NetDebugger.Http
