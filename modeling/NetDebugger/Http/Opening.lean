import NetDebugger.Http.Trailers

/-! What a stream opens with.  The parser finds a message in a stream exactly when a complete head
follows the blank separators, and the first request begins with its method and a space. -/

namespace NetDebugger.Http

open Lib

/-- What follows the blank separators. -/
def afterBlank (d : Bytes) : Bytes := d.dropWhile fun c => c = 0x0D ∨ c = 0x0A

/-- A complete head: it looks like a start line, a blank line ends it, and its first line is a start
line. -/
def HeadAt (asResponse : Bool) (s : Bytes) : Prop :=
  looksLikeStartLine s 0 asResponse = some true ∧
    ∃ i, indexOf (crlf ++ crlf) s = some i ∧
      (parseStartLine asResponse (cutLine (s.take i)).1 HttpMessage.empty).isSome

/-- The stream opens with a complete head. -/
def Opens (asResponse : Bool) (d : Bytes) : Prop := HeadAt asResponse (afterBlank d)

variable {d : Bytes} {asResponse : Bool}

theorem skipBlank_drop {fuel off start : Nat} (h : skipBlank d fuel off = some start) :
    d.drop start = afterBlank (d.drop off) := by
  induction fuel generalizing off with
  | zero => cases h
  | succ fuel ih =>
    by_cases hoff : off < d.length
    · rw [skipBlank_at hoff] at h
      rw [List.drop_eq_getElem_cons hoff, afterBlank, List.dropWhile_cons]
      by_cases hblank : d[off] = 0x0D ∨ d[off] = 0x0A
      · rw [if_pos hblank] at h
        rw [if_pos (decide_eq_true hblank)]
        exact ih h
      · rw [if_neg hblank] at h
        obtain rfl := Option.some.inj h
        rw [if_neg (by simpa using hblank), List.drop_eq_getElem_cons hoff]
    · rw [skipBlank_end hoff] at h
      obtain rfl := Option.some.inj h
      rw [List.drop_eq_nil_of_le (Nat.le_of_not_lt hoff)]
      rfl

theorem looksLikeStartLine_drop {off : Nat} (hoff : off ≤ d.length) :
    looksLikeStartLine d off asResponse = looksLikeStartLine (d.drop off) 0 asResponse := by
  have hfive : off + 5 ≤ d.length ↔ 0 + 5 ≤ (d.drop off).length := by
    rw [List.length_drop]
    omega
  have hend : off ≥ d.length ↔ 0 ≥ (d.drop off).length := by
    rw [List.length_drop]
    omega
  have hslice : slice d off 5 = slice (d.drop off) 0 5 := by
    by_cases h : off + 5 ≤ d.length
    · rw [slice_of_le h, slice_of_le (hfive.mp h), List.drop_zero]
    · rw [slice, slice, if_neg h, if_neg fun h' => h (hfive.mpr h')]
  simp only [looksLikeStartLine, hfive, hend, hslice, List.getElem?_drop, Nat.add_zero]

/-- The head that is read at an offset is the one that is there. -/
theorem parseHead_iff {off : Nat} (hoff : off ≤ d.length) :
    (∃ r, parseHead d off asResponse = some (some r)) ↔ HeadAt asResponse (d.drop off) := by
  obtain ⟨looks, hlooks⟩ := looksLikeStartLine_total d off asResponse
  obtain ⟨r, hhead, -⟩ := parseHead_total d off asResponse
  rw [hhead]
  unfold parseHead at hhead
  rw [HeadAt, ← looksLikeStartLine_drop hoff, hlooks]
  rw [hlooks, Option.bind_eq_bind, Option.bind_some] at hhead
  cases looks with
  | false =>
    obtain rfl := Option.some.inj hhead
    simp
  | true =>
    simp only [findDoubleCRLF_eq, Option.bind_eq_bind, Option.bind_some, Bool.not_true,
      Bool.false_eq_true, if_false] at hhead
    cases hfind : indexOf (crlf ++ crlf) (d.drop off) with
    | none =>
      rw [hfind] at hhead
      obtain rfl := Option.some.inj hhead
      simp
    | some i =>
      have hle := indexOf_le hfind
      rw [List.length_drop] at hle
      have hslice : slice d off (i + off - off) = some ((d.drop off).take i) := by
        rw [Nat.add_sub_cancel]
        exact slice_of_le (by omega)
      simp only [hfind, Option.map_some, hslice, Option.bind_some] at hhead
      have hsome := parseStartLine_isSome asResponse (cutLine ((d.drop off).take i)).1
        HttpMessage.empty { HttpMessage.empty with isRequest := !asResponse }
      simp only [true_and, Option.some.injEq, exists_eq_left', hsome]
      cases hstart : parseStartLine asResponse (cutLine ((d.drop off).take i)).1
          { HttpMessage.empty with isRequest := !asResponse } with
      | none =>
        rw [hstart] at hhead
        obtain rfl := Option.some.inj hhead
        simp
      | some m =>
        rw [hstart] at hhead
        obtain ⟨m', -, hr⟩ := Option.bind_eq_some_iff.mp hhead
        exact iff_of_true ⟨_, (Option.some.inj hr).symm⟩ rfl

theorem parseOne_none_iff {off : Nat} (hoff : off ≤ d.length) :
    parseOne d off asResponse = some none ↔ ¬HeadAt asResponse (d.drop off) := by
  obtain ⟨r, hhead, hr⟩ := parseHead_total d off asResponse
  rw [← parseHead_iff hoff, parseOne_eq, hhead, Option.bind_some]
  cases r with
  | none => simp
  | some r =>
    obtain ⟨-, hhigh, -⟩ := hr r.1 r.2 rfl
    obtain ⟨q, stop, hbody, -⟩ := parseBody_total hhigh asResponse r.1
    simp [hbody]

/-- A stream has a first message exactly when it opens with a head, and it is the one that is read
there. -/
theorem httpParse_first (d : Bytes) (asResponse : Bool) :
    httpParse d asResponse = some [] ∧ ¬Opens asResponse d ∨
      ∃ start q stop qs, httpParse d asResponse = some (q :: qs) ∧ Opens asResponse d ∧
        d.drop start = afterBlank d ∧ parseOne d start asResponse = some (some (q, stop)) := by
  by_cases hnil : d = []
  · subst hnil
    refine .inl ⟨rfl, fun h => ?_⟩
    cases h.1
  obtain ⟨start, hskip, -, hhigh⟩ :=
    @skipBlank_total d (d.length + 1) 0 (Nat.zero_le _) (by omega)
  have hdrop := skipBlank_drop hskip
  rw [List.drop_zero] at hdrop
  have hpos := List.length_pos_of_ne_nil hnil
  rw [httpParse, if_neg hnil, httpParseLoop, if_pos ⟨hpos, by decide⟩, hskip, Option.bind_eq_bind,
    Option.bind_some, Opens, ← hdrop]
  have hnone := @parseOne_none_iff d asResponse start hhigh
  obtain ⟨r, hparse, hr⟩ := parseOne_total d start asResponse
  rw [hparse] at hnone ⊢
  by_cases hend : start ≥ d.length
  · refine .inl ⟨if_pos hend, ?_⟩
    rw [List.drop_eq_nil_of_le hend]
    intro h
    cases h.1
  rw [if_neg hend]
  cases r with
  | none => exact .inl ⟨rfl, hnone.mp rfl⟩
  | some r =>
    have hforward := (hr r.1 r.2 rfl).forward
    have hstop := (hr r.1 r.2 rfl).high
    obtain ⟨more, hmore, -⟩ :=
      @httpParseLoop_total d asResponse d.length r.2 hstop (by omega) ([] ++ [r.1])
    refine .inr ⟨start, r.1, r.2, more, ?_, ?_, rfl, hparse⟩
    · rw [Option.bind_eq_bind, Option.bind_some]
      exact (if_neg (Nat.not_le_of_lt hforward)).trans hmore
    · by_contra hno
      cases hnone.mpr hno

/-- The parser finds nothing in a stream that does not open with a head. -/
theorem httpParse_nil_iff (d : Bytes) (asResponse : Bool) :
    httpParse d asResponse = some [] ↔ ¬Opens asResponse d := by
  rcases httpParse_first d asResponse with ⟨hnil, hno⟩ | ⟨start, q, stop, qs, hcons, hopens, -⟩
  · exact iff_of_true hnil hno
  · rw [hcons]
    exact iff_of_false nofun (not_not.mpr hopens)

/-! ### The method of the first request -/

theorem addHeader_method (line : Bytes) (m : HttpMessage) :
    (addHeader line m).method = m.method := by
  unfold addHeader
  cases cut [0x3A] line with
  | none => rfl
  | some nv =>
    simp only
    split_ifs <;> rfl

theorem parseHeaders_method {fuel : Nat} {head : Bytes} {m m' : HttpMessage}
    (h : parseHeaders fuel head m = some m') : m'.method = m.method := by
  induction fuel generalizing head m with
  | zero => cases h
  | succ fuel ih =>
    unfold parseHeaders at h
    split at h
    · exact Option.some.inj h ▸ rfl
    · dsimp only at h
      split at h
      · exact Option.some.inj h ▸ rfl
      · exact (ih h).trans (addHeader_method ..)

theorem parseBody_method {bodyStart : Nat} {m q : HttpMessage} {stop : Nat}
    (h : parseBody d bodyStart asResponse m = some (q, stop)) : q.method = m.method := by
  unfold parseBody at h
  split at h
  · obtain ⟨r, -, h⟩ := Option.bind_eq_some_iff.mp h
    exact congrArg (fun r => r.1.method) (Option.some.inj h).symm
  · split at h
    · obtain ⟨r, -, h⟩ := Option.bind_eq_some_iff.mp h
      exact congrArg (fun r => r.1.method) (Option.some.inj h).symm
    · split at h
      · obtain ⟨r, -, h⟩ := Option.bind_eq_some_iff.mp h
        exact congrArg (fun r => r.1.method) (Option.some.inj h).symm
      · exact congrArg (fun r => r.1.method) (Option.some.inj h).symm

theorem cutLine_front (s : Bytes) : (cutLine s).1 <+: s := by
  unfold cutLine cut
  cases indexOf crlf s with
  | none => exact List.prefix_refl s
  | some i => exact List.take_prefix i s

theorem parseRequestLine_method {line : Bytes} {m p : HttpMessage}
    (h : parseRequestLine line m = some p) : p.method ++ [0x20] <+: line := by
  simp only [parseRequestLine, Option.bind_eq_bind, Option.bind_eq_some_iff] at h
  obtain ⟨⟨method, rest⟩, hcut, ⟨target, version⟩, -, hstored⟩ := h
  split_ifs at hstored
  obtain rfl := Option.some.inj hstored
  rw [cut_eq_append hcut]
  exact ⟨rest, by simp⟩

/-- A request begins with its method and a space. -/
theorem parseOne_method {off stop : Nat} {q : HttpMessage}
    (h : parseOne d off false = some (some (q, stop))) : q.method ++ [0x20] <+: d.drop off := by
  rw [parseOne_eq] at h
  obtain ⟨r, hhead, h⟩ := Option.bind_eq_some_iff.mp h
  cases r with
  | none => cases h
  | some r =>
  obtain ⟨b, hbody, hb⟩ := Option.map_eq_some_iff.mp h
  obtain ⟨rfl, -⟩ := Prod.mk.inj (Option.some.inj hb)
  have hmethod : b.1.method = r.1.method := parseBody_method hbody
  show b.1.method ++ [0x20] <+: d.drop off
  rw [hmethod]
  unfold parseHead at hhead
  obtain ⟨looks, -, hhead⟩ := Option.bind_eq_some_iff.mp hhead
  split at hhead
  · cases hhead
  obtain ⟨found, -, hhead⟩ := Option.bind_eq_some_iff.mp hhead
  cases found with
  | none => cases hhead
  | some hdrEnd =>
  obtain ⟨head, hslice, hhead⟩ := Option.bind_eq_some_iff.mp hhead
  dsimp only at hhead
  cases hstart : parseStartLine false (cutLine head).1
      { HttpMessage.empty with isRequest := !false } with
  | none =>
    rw [hstart] at hhead
    cases hhead
  | some m =>
    rw [hstart] at hhead
    obtain ⟨m', hheaders, hm'⟩ := Option.bind_eq_some_iff.mp hhead
    obtain rfl := Option.some.inj (Option.some.inj hm')
    have hheadmethod : m'.method = m.method := parseHeaders_method hheaders
    have hline : m.method ++ [0x20] <+: (cutLine head).1 := parseRequestLine_method hstart
    have hfront : head <+: d.drop off := by
      rw [slice] at hslice
      split at hslice
      · exact Option.some.inj hslice ▸ List.take_prefix ..
      · cases hslice
    rw [hheadmethod]
    exact hline.trans ((cutLine_front head).trans hfront)

/-- The first request of a stream. -/
theorem httpParse_method {q : HttpMessage} {qs : List HttpMessage}
    (h : httpParse d false = some (q :: qs)) : q.method ++ [0x20] <+: afterBlank d := by
  rcases httpParse_first d false with ⟨hnil, -⟩ | ⟨start, q', stop, qs', hcons, -, hdrop, hparse⟩
  · rw [hnil] at h
    cases h
  · rw [hcons] at h
    obtain ⟨rfl, -⟩ := List.cons.inj (Option.some.inj h)
    rw [← hdrop]
    exact parseOne_method hparse

/-- The first request has a method like a version exactly where the stream opens like a status
line. -/
theorem method_status_iff {q : HttpMessage} {qs : List HttpMessage}
    (h : httpParse d false = some (q :: qs)) :
    text "HTTP/" <+: q.method ↔ text "HTTP/" <+: afterBlank d := by
  have hmethod := httpParse_method h
  constructor
  · intro hstatus
    exact hstatus.trans ((List.prefix_append q.method [0x20]).trans hmethod)
  · intro hstatus
    obtain ⟨rest, hrest⟩ := hmethod
    rw [← hrest, List.append_assoc] at hstatus
    apply prefix_of_not_mem hstatus
    decide

/-- A response opens like a status line. -/
theorem Opens.status (h : Opens true d) : text "HTTP/" <+: afterBlank d := by
  obtain ⟨hlooks, -⟩ := h
  unfold looksLikeStartLine at hlooks
  split at hlooks
  · cases hlooks
  rw [if_pos rfl] at hlooks
  split at hlooks
  · next hfive =>
    rw [slice_of_le hfive, List.drop_zero, Option.map_some] at hlooks
    rw [← of_decide_eq_true (Option.some.inj hlooks)]
    exact List.take_prefix ..
  · cases hlooks

end NetDebugger.Http
