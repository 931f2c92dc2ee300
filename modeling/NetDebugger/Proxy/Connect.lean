import NetDebugger.Proxy.Dispatch

/-! The preamble of an explicit-proxy connection: what `ReadPreamble` takes from the stream, and what
`ParseConnect` makes of the authority in it.  Its last colon is taken for the one in front of the port,
and `atoi` finds a number in every text behind it. -/

namespace NetDebugger.Proxy

open Lib NetDebugger.Http

/-! ### What a preamble says -/

/-- The stream up to the first blank line, if that ends within 8192 bytes, and what follows it. -/
structure Preamble (sent pre rest : Bytes) : Prop where
  split : sent = pre ++ rest
  first : ∃ i, indexOf (crlf ++ crlf) sent = some i ∧ pre.length = i + 4
  short : pre.length ≤ 8192

/-- A request line `CONNECT authority HTTP/1.x` with whatever follows it. -/
def connectText (authority more : Bytes) : Bytes :=
  text "CONNECT " ++ (authority ++ (text " HTTP/1." ++ more))

/-- A name, or an IPv4 address. -/
structure PlainHost (h : Bytes) : Prop where
  nonempty : h ≠ []
  colon : 0x3A ∉ h
  opening : 0x5B ∉ h
  closing : 0x5D ∉ h

/-- An IPv6 address in brackets. -/
structure Bracketed (h : Bytes) : Prop where
  brackets : ∃ v : Bytes, h = 0x5B :: (v ++ [0x5D]) ∧ 0x3A ∈ v ∧ 0x5B ∉ v ∧ 0x5D ∉ v

def HostText (h : Bytes) : Prop := PlainHost h ∨ Bracketed h

/-- A decimal numeral that denotes a port. -/
structure PortText (t : Bytes) (port : UInt16) : Prop where
  numeral : Numeral 10 t port.toNat
  nonzero : port ≠ 0

/-- The authorities that name a host and a port. -/
inductive Names : Bytes → Bytes → UInt16 → Prop
  | absent {h : Bytes} (hh : HostText h) : Names h h 443
  | port {h t : Bytes} {port : UInt16} (hh : HostText h) (ht : PortText t port) :
      Names (h ++ 0x3A :: t) h port

/-- A preamble is accepted exactly for the authorities that name a host and a port, and with these. -/
def Exact (pre authority : Bytes) : Prop :=
  ∀ host port, parseConnect pre = some (host, port) ↔ Names authority host port

/-- A plain host, or any host with a port behind it. -/
def Dialable (authority : Bytes) : Prop :=
  PlainHost authority ∨ ∃ h t port, authority = h ++ 0x3A :: t ∧ HostText h ∧ PortText t port

/-! ### The end of the preamble -/

theorem blank_suffix {s : Bytes} : crlf ++ crlf <:+ s ↔
    s.length ≥ 4 ∧ s.drop (s.length - 4) = crlf ++ crlf := by
  have hlen : (crlf ++ crlf).length = 4 := rfl
  rw [List.suffix_iff_eq_drop, hlen]
  constructor
  · intro h
    refine ⟨?_, h.symm⟩
    have hle := congrArg List.length h
    rw [hlen, List.length_drop] at hle
    omega
  · exact fun h => h.2.symm

/-- The loop stops behind the first blank line of the stream. -/
theorem readPreambleLoop_eq {fuel : Nat} {out sent : Bytes}
    (hout : indexOf (crlf ++ crlf) out = none) : readPreambleLoop fuel sent out =
      ((indexOf (crlf ++ crlf) (out ++ sent)).filter fun i => i + 4 ≤ out.length + fuel).map
        fun i => (out ++ sent).splitAt (i + 4) := by
  induction fuel generalizing out sent with
  | zero =>
    rw [readPreambleLoop]
    cases hfind : indexOf (crlf ++ crlf) (out ++ sent) with
    | none => rfl
    | some i =>
      have hlong : ¬i + 4 ≤ out.length := by
        intro hle
        have hmatch := indexOf_matches hfind
        rw [List.drop_append_of_le_length (by omega)] at hmatch
        refine indexOf_ne_none (i := i) ?_ hout
        refine List.prefix_of_prefix_length_le hmatch (List.prefix_append _ sent) ?_
        rw [List.length_drop]
        show 4 ≤ _
        omega
      simp [Option.filter, hlong]
  | succ fuel ih =>
    cases sent with
    | nil => simp [readPreambleLoop, hout]
    | cons c sent =>
      have hsnoc := indexOf_snoc (a := c) hout
      have hsplit : out ++ c :: sent = out ++ [c] ++ sent := by simp
      have hlen : (out ++ [c]).length = out.length + 1 := List.length_append
      rw [readPreambleLoop]
      simp only [← blank_suffix]
      by_cases hblank : crlf ++ crlf <:+ out ++ [c]
      · have hfour : 4 ≤ (out ++ [c]).length := hblank.length_le
        rw [if_pos hblank] at hsnoc ⊢
        have hwhole := indexOf_append_of_some hsnoc sent
        have hend : out.length + 1 - (crlf ++ crlf).length + 4 = (out ++ [c]).length := by
          show out.length + 1 - 4 + 4 = _
          omega
        rw [hsplit, hwhole]
        rw [Option.filter, if_pos (decide_eq_true (by omega)), Option.map_some, hend, List.splitAt_eq,
          List.take_left, List.drop_left]
      · rw [if_neg hblank] at hsnoc ⊢
        rw [ih hsnoc, ← hsplit, hlen, show out.length + 1 + fuel = out.length + (fuel + 1) by omega]

theorem readPreamble_iff (sent pre rest : Bytes) :
    readPreamble sent = some (pre, rest) ↔ Preamble sent pre rest := by
  have hloop := @readPreambleLoop_eq 8192 [] sent rfl
  rw [List.nil_append, List.length_nil, Nat.zero_add] at hloop
  rw [readPreamble, hloop]
  constructor
  · intro h
    obtain ⟨i, hi, hsplit⟩ := Option.map_eq_some_iff.mp h
    obtain ⟨hfind, hshort⟩ := Option.filter_eq_some_iff.mp hi
    have hle := indexOf_le hfind
    rw [List.splitAt_eq] at hsplit
    obtain ⟨rfl, rfl⟩ := Prod.mk.inj hsplit
    have hlen : (sent.take (i + 4)).length = i + 4 := by
      rw [List.length_take]
      exact Nat.min_eq_left hle
    refine ⟨(List.take_append_drop ..).symm, ⟨i, hfind, hlen⟩, ?_⟩
    rw [hlen]
    simpa using hshort
  · rintro ⟨rfl, ⟨i, hfind, hlen⟩, hshort⟩
    rw [hfind, Option.filter, if_pos (by simp; omega), Option.map_some, List.splitAt_eq, ← hlen,
      List.take_left, List.drop_left]

/-! ### The authority -/

theorem rfind_none {c : UInt8} {s : Bytes} (h : c ∉ s) : rfind c s = none := by
  rw [rfind, List.findIdx?_eq_none_iff.mpr, Option.map_none]
  intro x hx
  refine decide_eq_false fun heq => ?_
  rw [heq, List.mem_reverse] at hx
  exact h hx

/-- The last occurrence. -/
theorem rfind_last {c : UInt8} (pre : Bytes) {post : Bytes} (h : c ∉ post) :
    rfind c (pre ++ c :: post) = some pre.length := by
  have hnone : post.reverse.findIdx? (fun x => decide (x = c)) = none := by
    refine List.findIdx?_eq_none_iff.mpr fun x hx => decide_eq_false fun heq => ?_
    rw [heq, List.mem_reverse] at hx
    exact h hx
  rw [rfind, List.reverse_append, List.reverse_cons, List.append_assoc, List.findIdx?_append, hnone,
    List.singleton_append, List.findIdx?_cons, if_pos (by simp)]
  simp

/-- A list has a last occurrence of each of its entries. -/
theorem exists_last {c : UInt8} {s : Bytes} (h : c ∈ s) :
    ∃ pre post, s = pre ++ c :: post ∧ c ∉ post := by
  obtain ⟨xs, ys, hsplit, hnot⟩ := List.eq_append_cons_of_mem (List.mem_reverse.mpr h)
  refine ⟨ys.reverse, xs.reverse, ?_, by rwa [List.mem_reverse]⟩
  have hreverse := congrArg List.reverse hsplit
  simpa using hreverse

/-- The port that the code makes of a text. -/
def portOf (t : Bytes) : UInt16 :=
  if UInt16.ofInt (atoi t) = 0 then 443 else UInt16.ofInt (atoi t)

/-- The authority is what stands in front of the second space. -/
theorem parseConnect_eq {authority : Bytes} (hspace : 0x20 ∉ authority) (more : Bytes) :
    parseConnect (connectText authority more) = some (match rfind 0x3A authority with
      | none => (authority, 443)
      | some colon => (authority.take colon, portOf (authority.drop (colon + 1)))) := by
  have htake : (connectText authority more).take 8 = text "CONNECT " := rfl
  have hcut : cut [0x20] ((connectText authority more).drop 8) =
      some (authority, text "HTTP/1." ++ more) := by
    have hline := indexOf_line [] hspace (text "HTTP/1." ++ more)
    have hdrop : (connectText authority more).drop 8 =
        authority ++ ([0x20] ++ (text "HTTP/1." ++ more)) := rfl
    rw [hdrop, cut, hline, Option.map_some, List.take_left, ← List.drop_drop, List.drop_left]
    rfl
  unfold parseConnect
  rw [if_neg (not_not.mpr htake), hcut]
  simp only
  cases rfind 0x3A authority with
  | none => rfl
  | some colon => rfl

theorem parseConnect_absent {authority : Bytes} (hspace : 0x20 ∉ authority)
    (hcolon : 0x3A ∉ authority) (more : Bytes) :
    parseConnect (connectText authority more) = some (authority, 443) := by
  rw [parseConnect_eq hspace, rfind_none hcolon]

theorem parseConnect_port {h t : Bytes} (hspace : 0x20 ∉ h ++ 0x3A :: t) (hcolon : 0x3A ∉ t)
    (more : Bytes) :
    parseConnect (connectText (h ++ 0x3A :: t) more) = some (h, portOf t) := by
  have hdrop : (h ++ 0x3A :: t).drop (h.length + 1) = t := by
    rw [← List.drop_drop, List.drop_left]
    rfl
  rw [parseConnect_eq hspace, rfind_last h hcolon]
  simp only [List.take_left, hdrop]

/-! ### The port -/

theorem PortText.portOf_eq {t : Bytes} {port : UInt16} (h : PortText t port) : portOf t = port := by
  have hlt := port.toNat_lt
  have hnat : UInt16.ofInt (atoi t) = port := by
    rw [h.numeral.atoi (by omega), UInt16.ofInt]
    have hmod : ((port.toNat : Int) % 2 ^ 16).toNat = port.toNat := by omega
    rw [hmod, UInt16.ofNat_toNat]
  rw [portOf, hnat, if_neg h.nonzero]

theorem PortText.unique {t : Bytes} {p q : UInt16} (hp : PortText t p) (hq : PortText t q) : p = q := by
  rw [← hp.portOf_eq, hq.portOf_eq]

/-- A digit is none of the marks of an authority. -/
theorem PortText.not_mem {t : Bytes} {port : UInt16} (h : PortText t port) :
    0x3A ∉ t ∧ 0x5D ∉ t := by
  have hdigit (c : UInt8) (hc : c ∈ t) : (digitVal 10 c).isSome = true := h.numeral.digits c hc
  constructor
  · exact fun hmem => absurd (hdigit _ hmem) (by decide)
  · exact fun hmem => absurd (hdigit _ hmem) (by decide)

/-- The last colon is where the port begins. -/
theorem split_unique {c : UInt8} {pre pre' post post' : Bytes} (h : pre ++ c :: post = pre' ++ c :: post')
    (hpost : c ∉ post) (hpost' : c ∉ post') : pre = pre' ∧ post = post' := by
  have hfind := rfind_last pre hpost
  rw [h, rfind_last pre' hpost'] at hfind
  obtain ⟨hpre, hrest⟩ := List.append_inj h (Option.some.inj hfind).symm
  exact ⟨hpre, (List.cons.inj hrest).2⟩

theorem Bracketed.not_port {h t : Bytes} {port : UInt16} (ht : PortText t port) :
    ¬Bracketed (h ++ 0x3A :: t) := by
  rintro ⟨v, heq, -⟩
  have hlast := congrArg List.getLast? heq
  obtain ⟨c, s, rfl⟩ := List.exists_cons_of_ne_nil ht.numeral.nonempty
  rw [← List.cons_append, List.getLast?_append, List.getLast?_append] at hlast
  simp only [List.getLast?_cons_cons, List.getLast?_singleton, Option.some_or] at hlast
  obtain ⟨d, hd⟩ : ∃ d, (c :: s).getLast? = some d := ⟨_, List.getLast?_eq_some_getLast (by simp)⟩
  rw [hd, Option.some_or] at hlast
  rw [Option.some.inj hlast] at hd
  exact ht.not_mem.2 (List.mem_of_getLast? hd)

/-! ### When the authority is parsed right -/

theorem names_plain {authority host : Bytes} {port : UInt16} (hplain : PlainHost authority) :
    Names authority host port ↔ authority = host ∧ 443 = port := by
  constructor
  · rintro (- | ⟨-, -⟩)
    · exact ⟨rfl, rfl⟩
    · exact absurd (List.mem_append_right _ (List.mem_cons_self ..)) hplain.colon
  · rintro ⟨rfl, rfl⟩
    exact .absent (.inl hplain)

theorem names_port {h t host : Bytes} {p port : UInt16} (hh : HostText h) (ht : PortText t p) :
    Names (h ++ 0x3A :: t) host port ↔ h = host ∧ p = port := by
  constructor
  · intro hnames
    generalize hauthority : h ++ 0x3A :: t = authority at hnames
    cases hnames with
    | absent hhost =>
      rw [← hauthority] at hhost
      rcases hhost with hplain | hbracketed
      · exact absurd (List.mem_append_right _ (List.mem_cons_self ..)) hplain.colon
      · exact absurd hbracketed (Bracketed.not_port ht)
    | port hhost hport =>
      obtain ⟨rfl, rfl⟩ := split_unique hauthority ht.not_mem.1 hport.not_mem.1
      exact ⟨rfl, ht.unique hport⟩
  · rintro ⟨rfl, rfl⟩
    exact .port hh ht

/-- An address in brackets is cut at its own last colon. -/
theorem parseConnect_bracketed {authority : Bytes} (hspace : 0x20 ∉ authority)
    (hbracketed : Bracketed authority) (more : Bytes) (port : UInt16) :
    parseConnect (connectText authority more) ≠ some (authority, port) := by
  obtain ⟨v, rfl, hcolon, -⟩ := hbracketed
  obtain ⟨pre, post, hsplit, hpost⟩ := @exists_last 0x3A (0x5B :: (v ++ [0x5D])) (by simp [hcolon])
  rw [hsplit] at hspace ⊢
  rw [parseConnect_port hspace hpost]
  intro heq
  have hlen := congrArg List.length (Prod.mk.inj (Option.some.inj heq)).1
  rw [List.length_append, List.length_cons] at hlen
  omega

theorem exact_iff {authority : Bytes} (hspace : 0x20 ∉ authority) (more : Bytes) :
    Exact (connectText authority more) authority ↔ Dialable authority := by
  constructor
  · intro hexact
    have hparse := parseConnect_eq hspace more
    generalize (match rfind 0x3A authority with
      | none => (authority, (443 : UInt16))
      | some colon => (authority.take colon, portOf (authority.drop (colon + 1)))) = r at hparse
    obtain ⟨host, port⟩ := r
    have hnames := (hexact host port).mp hparse
    cases hnames with
    | absent hh =>
      rcases hh with hplain | hbracketed
      · exact .inl hplain
      · exact absurd hparse (parseConnect_bracketed hspace hbracketed more 443)
    | port hh ht => exact .inr ⟨_, _, _, rfl, hh, ht⟩
  · rintro (hplain | ⟨h, t, p, rfl, hh, ht⟩) host port
    · rw [parseConnect_absent hspace hplain.colon, names_plain hplain, Option.some.injEq,
        Prod.mk.injEq]
    · rw [parseConnect_port hspace ht.not_mem.1, ht.portOf_eq, names_port hh ht, Option.some.injEq,
        Prod.mk.injEq]

/-- `ReadPreamble` takes the stream up to the first blank line and nothing behind it. An authority is
parsed right exactly when it is a plain host, or any host with a port behind it. -/
theorem connect_exact_iff (sent more : Bytes) {authority : Bytes} (hspace : 0x20 ∉ authority) :
    (∀ pre rest, readPreamble sent = some (pre, rest) ↔ Preamble sent pre rest) ∧
      (Exact (connectText authority more) authority ↔ Dialable authority) :=
  ⟨readPreamble_iff sent, exact_iff hspace more⟩

def tunnelText : Bytes := connectText (text "a.io:8443") (text "1\r\n\r\n")

theorem connect_exact_iff_tunnel :
    readPreamble (tunnelText ++ [0x16, 3]) = some (tunnelText, [0x16, 3]) ∧
      Exact tunnelText (text "a.io:8443") := by
  obtain ⟨hpreamble, hexact⟩ := connect_exact_iff (tunnelText ++ [0x16, 3]) (text "1\r\n\r\n")
    (show 0x20 ∉ text "a.io:8443" by decide)
  constructor
  · exact (hpreamble _ _).mpr ⟨rfl, ⟨26, by decide, rfl⟩, by decide⟩
  · refine hexact.mpr (.inr ⟨text "a.io", text "8443", 8443, rfl, .inl ?_, ?_⟩)
    · exact ⟨by decide, by decide, by decide, by decide⟩
    · exact ⟨⟨by decide, by decide, by decide⟩, by decide⟩

/-- The port 65616 is dialed as port 80, and the last group of an address as a port. -/
theorem port_aliased :
    (parseConnect (connectText (text "a.io:65616") (text "1\r\n\r\n")) = some (text "a.io", 80) ∧
      ¬Exact (connectText (text "a.io:65616") (text "1\r\n\r\n")) (text "a.io:65616")) ∧
    parseConnect (connectText (text "[2001:db8::1]") (text "1\r\n\r\n")) =
        some (text "[2001:db8:", 1) ∧
      ¬Exact (connectText (text "[2001:db8::1]") (text "1\r\n\r\n")) (text "[2001:db8::1]") := by
  refine ⟨⟨by decide, ?_⟩, by decide, ?_⟩
  · rw [exact_iff (by decide)]
    rintro (hplain | ⟨h, t, p, hsplit, -, ht⟩)
    · exact hplain.colon (by decide)
    · obtain ⟨-, rfl⟩ := split_unique (show text "a.io" ++ 0x3A :: text "65616" = _ from hsplit)
        (by decide) ht.not_mem.1
      have hvalue : digitsVal 10 0 (text "65616") = 65616 := by decide
      have hlt := p.toNat_lt
      have heq := ht.numeral.value
      omega
  · rw [exact_iff (by decide)]
    rintro (hplain | ⟨h, t, p, hsplit, -, ht⟩)
    · exact hplain.opening (by decide)
    · obtain ⟨-, rfl⟩ := split_unique (show text "[2001:db8:" ++ 0x3A :: text "1]" = _ from hsplit)
        (by decide) ht.not_mem.1
      exact ht.not_mem.2 (by decide)

/-! ### What is dialed -/

/-- A client that sends a preamble gets what the parser makes of it. -/
theorem dispatch_connect {p : Peer} {authority more rest : Bytes}
    (h : Preamble p.sent (connectText authority more) rest) :
    dispatch p = some (match parseConnect (connectText authority more) with
      | none => .notImplemented
      | some (host, port) => .explicit host port) := by
  have hread := (readPreamble_iff _ _ _).mpr h
  obtain ⟨tail, hsent⟩ : ∃ tail, p.sent = 0x43 :: tail := ⟨_, h.split⟩
  unfold dispatch
  rw [hsent] at hread ⊢
  simp only [hread]
  rw [if_neg (by decide)]
  cases parseConnect (connectText authority more) with
  | none => rfl
  | some target => rfl

/-- The host and the port of the authority are dialed, if the client takes the certificate. -/
theorem handleConn_connect {p : Peer} {authority more rest host : Bytes} {port : UInt16}
    (hspace : 0x20 ∉ authority) (h : Preamble p.sent (connectText authority more) rest)
    (hdialable : Dialable authority) (hnames : Names authority host port) (serves : Bytes → Bool) :
    handleConn serves p = some (if serves host then .dialed host port else .closed) := by
  have hparse := ((exact_iff hspace more).mpr hdialable host port).mpr hnames
  unfold handleConn
  rw [dispatch_connect h, hparse, Option.map_some]

end NetDebugger.Proxy
