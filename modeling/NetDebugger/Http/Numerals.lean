import NetDebugger.Http.Bodyless

/-! The numbers that frame a body: the `Content-Length` and the sizes in front of the chunks.
`strtoul` finds a number in every text, so a text that is no numeral is noticed only where its number
reaches behind the buffer. -/

namespace NetDebugger.Http

open Lib

/-- One or more digits of the base that denote a length of 32 bits. -/
def IsLength (base : Nat) (s : Bytes) : Prop := ∃ v < 2 ^ 32, Numeral base s v

/-- The text of the size in a chunk line. -/
def sizeText (line : Bytes) : Bytes := trim (((cut [0x3B] line).map Prod.fst).getD line)

/-- The places where the loop over the chunks reads a line, with the body it has stored. -/
inductive Lines (d : Bytes) (bodyStart : Nat) (m : HttpMessage) : Nat → Bytes → Bool → Prop
  | first : Lines d bodyStart m bodyStart m.body m.bodyTruncated
  | next {p le : Nat} {body b : Bytes} {t t' : Bool} (h : Lines d bodyStart m p body t)
      (hline : findLine d p = some le) (hsize : chunkSize (lineAt d p le) ≠ 0)
      (hfit : le + 2 + chunkSize (lineAt d p le) ≤ d.length)
      (happend : appendCapped d (le + 2) (chunkSize (lineAt d p le)) body t = some (b, t')) :
      Lines d bodyStart m (skipSeparator d (le + 2 + chunkSize (lineAt d p le))) b t'

/-- The message is marked as cut off, and no other message is looked for behind it. -/
def GivenUp (d : Bytes) (bodyStart : Nat) (asResponse : Bool) (m : HttpMessage) : Prop :=
  ∃ q, parseBody d bodyStart asResponse m = some (q, d.length) ∧ q.bodyTruncated = true

/-- The size of a chunk line is used when it is a numeral. Otherwise the round at the line is the last
one, and the message is given up. -/
structure LineFramed (d : Bytes) (bodyStart : Nat) (asResponse : Bool) (m : HttpMessage) (p : Nat)
    (body : Bytes) (t : Bool) (line : Bytes) : Prop where
  used : ∀ v < 2 ^ 32, Numeral 16 (sizeText line) v → chunkSize line = v
  refused : ¬IsLength 16 (sizeText line) →
    (∃ b, chunkLoop d 1 p body t = some (d.length, b, true)) ∧ GivenUp d bodyStart asResponse m

/-- A length that is a numeral is used as far as bytes are captured. Otherwise the message is given
up. -/
structure LengthFramed (d : Bytes) (bodyStart : Nat) (asResponse : Bool) (m : HttpMessage)
    (s : Bytes) : Prop where
  used : ∀ v < 2 ^ 32, Numeral 10 s v →
    ∃ q, parseBody d bodyStart asResponse m =
        some (q, bodyStart + min v (d.length - bodyStart)) ∧
      q.bodyBytes = min v (d.length - bodyStart) ∧
      (q.bodyTruncated = true ↔
        d.length - bodyStart < v ∨ kMaxBody < min v (d.length - bodyStart))
  refused : ¬IsLength 10 s → GivenUp d bodyStart asResponse m

/-- Every number that frames the body is used exactly when it is a numeral. -/
def Framed (d : Bytes) (bodyStart : Nat) (asResponse : Bool) (m : HttpMessage) : Prop :=
  if m.chunked = true then
    ∀ p body t le, Lines d bodyStart m p body t → findLine d p = some le →
      LineFramed d bodyStart asResponse m p body t (lineAt d p le)
  else
    ∀ cl, httpFindHeader m.headers (text "Content-Length") = some cl →
      LengthFramed d bodyStart asResponse m cl.value

/-- The size of a chunk line is a numeral. Or it reads as zero in front of the last line of the buffer,
or as more than the buffer has, when the body is more than is stored anyway. -/
def LineHeld (d : Bytes) (p : Nat) (body : Bytes) (t : Bool) (le : Nat) : Prop :=
  IsLength 16 (sizeText (lineAt d p le)) ∨
  strtoul 16 (sizeText (lineAt d p le)) = 0 ∧ t = true ∧
    (∀ e ∈ findLine d (le + 2), e + 2 = d.length) ∨
  d.length - (le + 2) < strtoul 16 (sizeText (lineAt d p le)) ∧
    (t = true ∨ kMaxBody ≤ body.length ∨ kMaxBody < body.length + (d.length - (le + 2)))

/-- The length is a numeral. Or it reads as more than the buffer has, or as just what it has and more
than is stored. -/
def LengthHeld (d : Bytes) (bodyStart : Nat) (s : Bytes) : Prop :=
  IsLength 10 s ∨ d.length - bodyStart < strtoul 10 s ∨
    strtoul 10 s = d.length - bodyStart ∧ kMaxBody < d.length - bodyStart

def Held (d : Bytes) (bodyStart : Nat) (m : HttpMessage) : Prop :=
  if m.chunked = true then
    ∀ p body t le, Lines d bodyStart m p body t → findLine d p = some le → LineHeld d p body t le
  else
    ∀ cl, httpFindHeader m.headers (text "Content-Length") = some cl →
      LengthHeld d bodyStart cl.value

/-! ### A chunk line -/

variable {d : Bytes} {bodyStart : Nat} {asResponse : Bool} {m : HttpMessage}

theorem Numeral.strtoul_eq {base : Nat} {s : Bytes} {v : Nat} (h : Numeral base s v)
    (hbase : base ≤ 16) (hv : v < 2 ^ 32) : Http.strtoul base s = v := by
  rw [h.strtoul hbase]
  exact Nat.min_eq_left (by omega)

/-- When a piece of the body is marked. -/
theorem appendCapped_marked {off len : Nat} {body b : Bytes} {t t' : Bool}
    (happend : appendCapped d off len body t = some (b, t')) :
    t' = true ↔ t = true ∨ kMaxBody ≤ body.length ∨ kMaxBody < body.length + len := by
  unfold appendCapped at happend
  by_cases hfull : body.length ≥ kMaxBody
  · rw [if_pos hfull] at happend
    obtain ⟨-, rfl⟩ := Prod.mk.inj (Option.some.inj happend)
    simp [hfull]
  · rw [if_neg hfull] at happend
    obtain ⟨bs, -, hbs⟩ := Option.map_eq_some_iff.mp happend
    obtain ⟨-, rfl⟩ := Prod.mk.inj hbs
    rw [Bool.or_eq_true, decide_eq_true_eq]
    refine or_congr_right ?_
    omega

/-- What the loop reads at a line is what it returns. -/
theorem Lines.chunks {p : Nat} {body : Bytes} {t : Bool} (h : Lines d bodyStart m p body t)
    {r : Nat × Bytes × Bool} (hrest : Chunks d p body t r) :
    Chunks d bodyStart m.body m.bodyTruncated r := by
  induction h with
  | first => exact hrest
  | next h hline hsize hfit happend ih => exact ih (.chunk hline hsize hfit happend hrest)

/-- A round that is the last one: behind the last chunk, or in a chunk that is cut off. -/
theorem chunkLoop_one {p le : Nat} (hline : findLine d p = some le) (body : Bytes) (t : Bool) :
    chunkLoop d 1 p body t =
      if chunkSize (lineAt d p le) = 0 then
        some (((findLine d (le + 2)).map (· + 2)).getD d.length, body, t)
      else if d.length < le + 2 + chunkSize (lineAt d p le) then
        (appendCapped d (le + 2) (d.length - (le + 2)) body t).map fun r => (d.length, r)
      else none := by
  unfold chunkLoop
  simp only [findCRLF_eq, hline, Option.bind_eq_bind, Option.bind_some, slice_line hline, gt_iff_lt]
  by_cases hsize : chunkSize (lineAt d p le) = 0
  · rw [if_pos hsize, if_pos hsize]
    cases findLine d (le + 2) <;> rfl
  rw [if_neg hsize, if_neg hsize]
  by_cases hcut : d.length < le + 2 + chunkSize (lineAt d p le)
  · rw [if_pos hcut, if_pos hcut]
    cases appendCapped d (le + 2) (d.length - (le + 2)) body t <;> rfl
  · rw [if_neg hcut, if_neg hcut]
    obtain ⟨t', happend⟩ := appendCapped_eq (Nat.le_of_not_lt hcut) body t
    rw [happend, Option.bind_some]
    by_cases hroom : le + 2 + chunkSize (lineAt d p le) + 2 ≤ d.length
    · rw [if_pos hroom]
      cases matchAt d crlf (le + 2 + chunkSize (lineAt d p le)) <;> rfl
    · rw [if_neg hroom]
      rfl

theorem chunks_of_round {p le : Nat} (hline : findLine d p = some le) {body : Bytes} {t : Bool}
    {r : Nat × Bytes × Bool} (hround : chunkLoop d 1 p body t = some r) : Chunks d p body t r := by
  rw [chunkLoop_one hline] at hround
  split_ifs at hround with hsize hcut
  · obtain rfl := Option.some.inj hround
    exact .last hline hsize
  · obtain ⟨⟨b, t'⟩, happend, rfl⟩ := Option.map_eq_some_iff.mp hround
    exact .cut hline hsize hcut happend

/-- A message is given up when the round at one of its lines is the last one and marks it. -/
theorem Lines.givenUp {p le : Nat} {body : Bytes} {t : Bool} (h : Lines d bodyStart m p body t)
    (hin : bodyStart ≤ d.length) (hchunked : m.chunked = true) (hline : findLine d p = some le)
    {b : Bytes} (hround : chunkLoop d 1 p body t = some (d.length, b, true)) :
    GivenUp d bodyStart asResponse m := by
  have hloop := (chunkLoop_iff hin).mpr (h.chunks (chunks_of_round hline hround))
  unfold GivenUp parseBody
  rw [if_pos hchunked, hloop]
  exact ⟨_, rfl, rfl⟩

/-- The round at a line ends the message, marked and at the end of the buffer. -/
theorem round_refused {p le : Nat} (hline : findLine d p = some le) (body : Bytes) (t : Bool) :
    (∃ b, chunkLoop d 1 p body t = some (d.length, b, true)) ↔
      chunkSize (lineAt d p le) = 0 ∧ t = true ∧ (∀ e ∈ findLine d (le + 2), e + 2 = d.length) ∨
      d.length - (le + 2) < chunkSize (lineAt d p le) ∧
        (t = true ∨ kMaxBody ≤ body.length ∨ kMaxBody < body.length + (d.length - (le + 2))) := by
  obtain ⟨hlow, hhigh⟩ := findLine_bounds hline
  rw [chunkLoop_one hline]
  by_cases hsize : chunkSize (lineAt d p le) = 0
  · rw [if_pos hsize]
    cases findLine d (le + 2) with
    | none => simp [hsize]
    | some e => simp [hsize, and_comm]
  rw [if_neg hsize]
  by_cases hcut : d.length < le + 2 + chunkSize (lineAt d p le)
  · obtain ⟨t', happend⟩ := appendCapped_eq
      (show le + 2 + (d.length - (le + 2)) ≤ d.length by omega) body t
    have hmarked := appendCapped_marked happend
    have hlong : d.length - (le + 2) < chunkSize (lineAt d p le) := by omega
    rw [if_pos hcut, happend]
    simp [hsize, hlong, hmarked]
  · have hshort : ¬d.length - (le + 2) < chunkSize (lineAt d p le) := by omega
    rw [if_neg hcut]
    simp [hsize, hshort]

theorem lineFramed_iff {p le : Nat} {body : Bytes} {t : Bool} (h : Lines d bodyStart m p body t)
    (hin : bodyStart ≤ d.length) (hchunked : m.chunked = true) (hline : findLine d p = some le) :
    LineFramed d bodyStart asResponse m p body t (lineAt d p le) ↔ LineHeld d p body t le := by
  have hround := round_refused hline body t
  constructor
  · intro hframed
    by_cases hlength : IsLength 16 (sizeText (lineAt d p le))
    · exact .inl hlength
    · exact .inr (hround.mp (hframed.refused hlength).1)
  · intro hheld
    refine ⟨fun v hv hnumeral => hnumeral.strtoul_eq (by decide) hv, fun hnot => ?_⟩
    obtain ⟨b, hb⟩ := hround.mpr (hheld.resolve_left hnot)
    exact ⟨⟨b, hb⟩, h.givenUp hin hchunked hline hb⟩

/-! ### A length -/

/-- What the parser makes of a length, numeral or not. -/
theorem parseBody_length (hin : bodyStart ≤ d.length) (hchunked : m.chunked = false)
    (hempty : Bodyless m) {cl : HttpHeader}
    (hcl : httpFindHeader m.headers (text "Content-Length") = some cl) :
    ∃ q, parseBody d bodyStart asResponse m =
        some (q, bodyStart + min (strtoul 10 cl.value) (d.length - bodyStart)) ∧
      q.bodyBytes = min (strtoul 10 cl.value) (d.length - bodyStart) ∧
      (q.bodyTruncated = true ↔ d.length - bodyStart < strtoul 10 cl.value ∨
        kMaxBody < min (strtoul 10 cl.value) (d.length - bodyStart)) := by
  obtain ⟨t, happend⟩ := appendCapped_eq
    (show bodyStart + min (strtoul 10 cl.value) (d.length - bodyStart) ≤ d.length by omega) [] false
  have hmarked := appendCapped_marked happend
  have hcap : ¬kMaxBody ≤ ([] : Bytes).length := by decide
  unfold parseBody
  rw [if_neg (by rw [hchunked]; decide), hcl, hempty.1, hempty.2]
  simp only [happend, Option.bind_eq_bind, Option.bind_some]
  refine ⟨_, rfl, rfl, ?_⟩
  simp only [Bool.or_eq_true, decide_eq_true_eq, hmarked, Bool.false_eq_true, false_or,
    List.length_nil, Nat.zero_add]
  omega

theorem lengthFramed_iff (hin : bodyStart ≤ d.length) (hchunked : m.chunked = false)
    (hempty : Bodyless m) {cl : HttpHeader}
    (hcl : httpFindHeader m.headers (text "Content-Length") = some cl) :
    LengthFramed d bodyStart asResponse m cl.value ↔ LengthHeld d bodyStart cl.value := by
  obtain ⟨q, hbody, hbytes, hmarked⟩ := @parseBody_length d bodyStart asResponse m hin hchunked
    hempty cl hcl
  constructor
  · intro hframed
    by_cases hlength : IsLength 10 cl.value
    · exact .inl hlength
    · obtain ⟨q', hgiven, htruncated⟩ := hframed.refused hlength
      have heq := hbody.symm.trans hgiven
      obtain ⟨rfl, hstop⟩ := Prod.mk.inj (Option.some.inj heq)
      have hlong := hmarked.mp htruncated
      refine .inr ?_
      omega
  · intro hheld
    constructor
    case used =>
      intro v hv hnumeral
      rw [hnumeral.strtoul_eq (by decide) hv] at hbody hbytes hmarked
      exact ⟨q, hbody, hbytes, hmarked⟩
    case refused =>
      intro hnot
      have hlong := hheld.resolve_left hnot
      have hstop : bodyStart + min (strtoul 10 cl.value) (d.length - bodyStart) = d.length := by
        omega
      rw [hstop] at hbody
      refine ⟨q, hbody, hmarked.mpr ?_⟩
      omega

/-- Every number that frames a message is used exactly when it is a numeral: this holds when every
text that is none is read as a number that gives the message up. -/
theorem framed_iff {off : Nat} (hhead : parseHead d off asResponse = some (some (m, bodyStart))) :
    Framed d bodyStart asResponse m ↔ Held d bodyStart m := by
  obtain ⟨r, hhead', hr⟩ := parseHead_total d off asResponse
  obtain ⟨-, hin, hempty⟩ := hr m bodyStart (Option.some.inj (hhead'.symm.trans hhead))
  unfold Framed Held
  by_cases hchunked : m.chunked = true
  · rw [if_pos hchunked, if_pos hchunked]
    refine forall_congr' fun p => forall_congr' fun body => forall_congr' fun t =>
      forall_congr' fun le => forall_congr' fun h => forall_congr' fun hline => ?_
    exact lineFramed_iff h hin hchunked hline
  · rw [if_neg hchunked, if_neg hchunked]
    refine forall_congr' fun cl => forall_congr' fun hcl => ?_
    exact lengthFramed_iff hin (Bool.eq_false_of_not_eq_true hchunked) hempty hcl

/-- A response of five bytes behind what it says of its length. -/
def lengthed (value : Bytes) : Bytes :=
  text "HTTP/1.1 200 OK" ++ (crlf ++ (text "Content-Length: " ++ (value ++ (crlf ++
    (crlf ++ text "hello")))))

def lengthedHead (value : Bytes) : HttpMessage :=
  { HttpMessage.empty with
    version := text "HTTP/1.1", statusCode := 200, statusReason := text "OK"
    headers := [⟨text "Content-Length", value⟩] }

theorem held_lengthed {value : Bytes} {bodyStart : Nat}
    (h : LengthHeld (lengthed value) bodyStart value) :
    Held (lengthed value) bodyStart (lengthedHead value) := by
  have hchunked : ¬(lengthedHead value).chunked = true := Bool.false_ne_true
  have hheader : httpFindHeader (lengthedHead value).headers (text "Content-Length") =
      some ⟨text "Content-Length", value⟩ := rfl
  unfold Held
  rw [if_neg hchunked]
  intro cl hcl
  obtain rfl := Option.some.inj (hheader.symm.trans hcl)
  exact h

/-- A length that is written with a prefix. -/
def hexLength : Bytes := lengthed (text "0x5")

def hexLengthHead : HttpMessage := lengthedHead (text "0x5")

/-- Beside it a length that is a numeral, and one that is none but says too much. -/
theorem framed_iff_hexLength :
    (Framed hexLength 40 true hexLengthHead ↔ Held hexLength 40 hexLengthHead) ∧
      Framed (lengthed (text "5")) 38 true (lengthedHead (text "5")) ∧
      Framed (lengthed (text "9 bytes")) 44 true (lengthedHead (text "9 bytes")) := by
  have hnumeral : LengthHeld (lengthed (text "5")) 38 (text "5") :=
    .inl ⟨5, by decide, ⟨by decide, by decide, by decide⟩⟩
  have hlong : LengthHeld (lengthed (text "9 bytes")) 44 (text "9 bytes") :=
    .inr (.inl (by decide +kernel))
  refine ⟨@framed_iff hexLength 40 true hexLengthHead 0 (by decide +kernel), ?_, ?_⟩
  · exact (@framed_iff _ 38 true _ 0 (by decide +kernel)).mpr (held_lengthed hnumeral)
  · exact (@framed_iff _ 44 true _ 0 (by decide +kernel)).mpr (held_lengthed hlong)

/-- The length is read as zero, and the next message is looked for in the body. -/
theorem hexLength_not_framed :
    parseHead hexLength 0 true = some (some (hexLengthHead, 40)) ∧
    ¬Framed hexLength 40 true hexLengthHead := by
  refine ⟨by decide +kernel, fun hframed => ?_⟩
  have hchunked : ¬hexLengthHead.chunked = true := by decide
  unfold Framed at hframed
  rw [if_neg hchunked] at hframed
  have hlength := hframed ⟨text "Content-Length", text "0x5"⟩ (by decide)
  have hnot : ¬IsLength 10 (text "0x5") := by
    rintro ⟨v, -, hnumeral⟩
    exact absurd hnumeral.digits (by decide)
  obtain ⟨q, hbody, -⟩ := hlength.refused hnot
  have hstop : (parseBody hexLength 40 true hexLengthHead).map Prod.snd = some 40 := by
    decide +kernel
  rw [hbody, Option.map_some] at hstop
  have hend : hexLength.length = 40 := Option.some.inj hstop
  exact absurd hend (by decide)

end NetDebugger.Http
