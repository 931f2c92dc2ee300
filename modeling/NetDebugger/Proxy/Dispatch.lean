import NetDebugger.Http.Parse
import NetDebugger.Redirect

/-! What `handleConn` takes a connection for.  A first byte of a TLS record means a connection that the
driver redirected, anything else a client that knows the proxy.  Sockets, the CA and the TLS library
are answers of the environment. -/

namespace NetDebugger.Proxy

open Lib Redirect NetDebugger.Http

/-! ### The explicit proxy -/

/-- The loop of `ReadPreamble`: the bytes read so far and what was sent but not read. -/
def readPreambleLoop : Nat → Bytes → Bytes → Option (Bytes × Bytes)
  | 0, _, _ => none
  | _ + 1, [], _ => none
  | fuel + 1, c :: sent, out =>
    let out := out ++ [c]
    if out.length ≥ 4 ∧ out.drop (out.length - 4) = crlf ++ crlf then some (out, sent)
    else readPreambleLoop fuel sent out

/-- `ReadPreamble` of at most 8192 bytes. -/
def readPreamble (sent : Bytes) : Option (Bytes × Bytes) := readPreambleLoop 8192 sent []

/-- `std::string::rfind` of a byte. -/
def rfind (c : UInt8) (s : Bytes) : Option Nat :=
  (s.reverse.findIdx? (· = c)).map fun i => s.length - 1 - i

/-- `ParseConnect`. -/
def parseConnect (pre : Bytes) : Option (Bytes × UInt16) :=
  if pre.take 8 ≠ text "CONNECT " then none
  else
    match cut [0x20] (pre.drop 8) with
    | none => none
    | some (hp, _) =>
      match rfind 0x3A hp with
      | none => some (hp, 443)
      | some colon =>
        let port := UInt16.ofInt (atoi (hp.drop (colon + 1)))
        some (hp.take colon, if port = 0 then 443 else port)

/-! ### The server name -/

/-- Two bytes in network order. -/
def be16 (d : Bytes) (p : Nat) : Option Nat := do
  let hi ← d[p]?
  let lo ← d[p + 1]?
  some (hi.toNat * 256 + lo.toNat)

/-- The loop over the extensions of a ClientHello. -/
def sniLoop (d : Bytes) (extEnd : Nat) : Nat → Nat → Option Bytes
  | 0, _ => none
  | fuel + 1, p =>
    if p + 4 ≤ extEnd then do
      let et ← be16 d p
      let el ← be16 d (p + 2)
      let p := p + 4
      if et = 0 then
        if p + 5 ≤ extEnd then do
          let nameLen ← be16 d (p + 3)
          if p + 5 + nameLen ≤ extEnd then slice d (p + 5) nameLen else some []
        else some []
      else sniLoop d extEnd fuel (p + el)
    else some []

/-- `ParseSni`, with checked reads. An empty text is no name. -/
def parseSni (d : Bytes) : Option Bytes :=
  let n := d.length
  if n < 43 then some []
  else do
    if (← d[0]?) ≠ 0x16 then some []
    else
      if (← d[5]?) ≠ 0x01 then some []
      else
        let p := 5 + 4 + 2 + 32
        if p ≥ n then some []
        else do
          let p := p + 1 + (← d[p]?).toNat
          if p + 2 > n then some []
          else do
            let p := p + 2 + (← be16 d p)
            if p ≥ n then some []
            else do
              let p := p + 1 + (← d[p]?).toNat
              if p + 2 > n then some []
              else do
                let extEnd := p + 2 + (← be16 d p)
                sniLoop d (min extEnd n) (n + 1) (p + 2)

/-! ### The redirect context -/

def sizeofKndRedirectCtx : Nat := 20

/-- `KND_REDIRECT_CTX` as the driver attaches it. -/
def contextBytes (rc : KndRedirectCtx) : Bytes :=
  [rc.ipVersion, 0] ++ leBytes 2 rc.origPort.toNat ++ fixedArray 0 16 rc.origAddr

def contextRead (bs : Bytes) : KndRedirectCtx where
  ipVersion := pointer bs 0
  origPort := UInt16.ofNat (readNat (pointer bs) 2 2)
  origAddr := readBytes (pointer bs) 4 16

/-- `QueryOriginalDest` of what `SIO_QUERY_WFP_CONNECTION_REDIRECT_CONTEXT` answers. -/
def queryOriginalDest (answer : Option Bytes) : Option KndRedirectCtx :=
  match answer with
  | none => none
  | some bs => if bs.length < sizeofKndRedirectCtx then none else some (contextRead bs)

/-! ### The dispatch -/

/-- A connection as the proxy sees it. -/
structure Peer where
  /-- What the client sends before it closes. -/
  sent : Bytes
  /-- How much of it has arrived, besides the first byte, when the proxy peeks for the name. -/
  arrived : Nat
  /-- The redirect context of the socket. -/
  context : Option Bytes

/-- `%u.%u.%u.%u`. -/
def ipText (addr : Bytes) : Bytes :=
  decimal (addr.getD 0 0).toNat ++ text "." ++ decimal (addr.getD 1 0).toNat ++ text "." ++
    decimal (addr.getD 2 0).toNat ++ text "." ++ decimal (addr.getD 3 0).toNat

/-- What a connection is taken for. -/
inductive Dispatch
  | dropped
  | transparent (host certHost : Bytes) (port : UInt16)
  | explicit (host : Bytes) (port : UInt16)
  | notImplemented
deriving DecidableEq

/-- The first part of `handleConn`. -/
def dispatch (p : Peer) : Option Dispatch :=
  match p.sent with
  | [] => some .dropped
  | first :: _ =>
    if first = 0x16 then do
      let certHost ← parseSni (p.sent.take (min 2048 (1 + p.arrived)))
      match queryOriginalDest p.context with
      | none => some .dropped
      | some rc =>
        let host := snprintf 64 (ipText rc.origAddr)
        some (.transparent host (if certHost = [] then host else certHost) rc.origPort)
    else
      match readPreamble p.sent with
      | none => some .dropped
      | some (pre, _) =>
        match parseConnect pre with
        | none => some .notImplemented
        | some (host, port) => some (.explicit host port)

/-- How the first part and the upstream connect end. -/
inductive Outcome
  | closed
  | refused
  | dialed (host : Bytes) (port : UInt16)
deriving DecidableEq

/-- `handleConn` up to the upstream connect. `serves` tells for which name the certificate is minted
and the handshake with the client succeeds. -/
def handleConn (serves : Bytes → Bool) (p : Peer) : Option Outcome :=
  (dispatch p).map fun
    | .dropped => .closed
    | .notImplemented => .refused
    | .transparent host certHost port => if serves certHost then .dialed host port else .closed
    | .explicit host port => if serves host then .dialed host port else .closed

/-! ### The name is read in the buffer -/

variable {d : Bytes}

theorem be16_eq {p : Nat} (h : p + 2 ≤ d.length) : ∃ v, be16 d p = some v := by
  unfold be16
  rw [List.getElem?_eq_getElem (by omega), List.getElem?_eq_getElem (by omega)]
  exact ⟨_, rfl⟩

theorem sniLoop_total {extEnd fuel p : Nat} (hend : extEnd ≤ d.length) (hpos : 0 < fuel)
    (hfuel : extEnd < fuel + p) : ∃ name, sniLoop d extEnd fuel p = some name := by
  induction fuel generalizing p with
  | zero => omega
  | succ fuel ih =>
    unfold sniLoop
    by_cases hroom : p + 4 ≤ extEnd
    · obtain ⟨et, het⟩ := be16_eq (show p + 2 ≤ d.length by omega)
      obtain ⟨el, hel⟩ := be16_eq (show p + 2 + 2 ≤ d.length by omega)
      rw [if_pos hroom, het, hel]
      simp only [Option.bind_eq_bind, Option.bind_some]
      by_cases hname : et = 0
      · rw [if_pos hname]
        by_cases hlist : p + 4 + 5 ≤ extEnd
        · obtain ⟨nameLen, hlen⟩ := be16_eq (show p + 4 + 3 + 2 ≤ d.length by omega)
          rw [if_pos hlist, hlen, Option.bind_some]
          by_cases hfit : p + 4 + 5 + nameLen ≤ extEnd
          · rw [if_pos hfit, slice_of_le (Nat.le_trans hfit hend)]
            exact ⟨_, rfl⟩
          · exact ⟨[], if_neg hfit⟩
        · exact ⟨[], if_neg hlist⟩
      · rw [if_neg hname]
        exact ih (by omega) (by omega)
    · exact ⟨[], if_neg hroom⟩

/-- What follows a read does not change it. -/
theorem be16_append {p : Nat} (h : p + 2 ≤ d.length) (t : Bytes) : be16 (d ++ t) p = be16 d p := by
  unfold be16
  rw [List.getElem?_append_left (by omega), List.getElem?_append_left (by omega)]

/-- The fields in front of the extensions are not whole, or the search starts behind them, with more
bytes as without. -/
theorem parseSni_walk (d t : Bytes) : parseSni d = some [] ∨ ∃ start stop, start ≤ d.length ∧
    parseSni d = sniLoop d (min stop d.length) (d.length + 1) start ∧
    parseSni (d ++ t) = sniLoop (d ++ t) (min stop (d ++ t).length) ((d ++ t).length + 1) start := by
  unfold parseSni
  by_cases hshort : d.length < 43
  · exact .inl (if_pos hshort)
  have hlen : d.length ≤ (d ++ t).length := by
    rw [List.length_append]
    omega
  have hget (p : Nat) (hp : p < d.length) : d[p]? = some d[p] := List.getElem?_eq_getElem hp
  have hget' (p : Nat) (hp : p < d.length) : (d ++ t)[p]? = some d[p] := by
    rw [List.getElem?_append_left hp, hget p hp]
  have hlong : ¬(d ++ t).length < 43 := by omega
  simp only [hshort, hlong, if_false, hget 0 (by omega), hget 5 (by omega), hget' 0 (by omega),
    hget' 5 (by omega), Option.bind_eq_bind, Option.bind_some]
  by_cases htype : d[0] ≠ 0x16
  · exact .inl (if_pos htype)
  rw [if_neg htype, if_neg htype]
  by_cases hhello : d[5] ≠ 0x01
  · exact .inl (if_pos hhello)
  rw [if_neg hhello, if_neg hhello]
  by_cases h1 : 5 + 4 + 2 + 32 ≥ d.length
  · exact .inl (if_pos h1)
  have h1' : ¬5 + 4 + 2 + 32 ≥ (d ++ t).length := by omega
  simp only [h1, h1', if_false, hget _ (Nat.lt_of_not_le h1), hget' _ (Nat.lt_of_not_le h1),
    Option.bind_some]
  generalize 5 + 4 + 2 + 32 + 1 + d[5 + 4 + 2 + 32].toNat = suites
  by_cases h2 : suites + 2 > d.length
  · exact .inl (if_pos h2)
  have h2' : ¬suites + 2 > (d ++ t).length := by omega
  obtain ⟨suitesLen, hsuites⟩ := be16_eq (Nat.le_of_not_lt h2)
  simp only [h2, h2', if_false, be16_append (Nat.le_of_not_lt h2), hsuites, Option.bind_some]
  generalize suites + 2 + suitesLen = methods
  by_cases h3 : methods ≥ d.length
  · exact .inl (if_pos h3)
  have h3' : ¬methods ≥ (d ++ t).length := by omega
  simp only [h3, h3', if_false, hget _ (Nat.lt_of_not_le h3), hget' _ (Nat.lt_of_not_le h3),
    Option.bind_some]
  generalize methods + 1 + d[methods].toNat = extensions
  by_cases h4 : extensions + 2 > d.length
  · exact .inl (if_pos h4)
  have h4' : ¬extensions + 2 > (d ++ t).length := by omega
  obtain ⟨extLen, hext⟩ := be16_eq (Nat.le_of_not_lt h4)
  simp only [h4, h4', if_false, be16_append (Nat.le_of_not_lt h4), hext, Option.bind_some]
  exact .inr ⟨extensions + 2, extensions + 2 + extLen, Nat.le_of_not_lt h4, rfl, rfl⟩

/-- `ParseSni` ends without an access out of bounds. -/
theorem parseSni_total (d : Bytes) : ∃ name, parseSni d = some name := by
  rcases parseSni_walk d [] with hnone | ⟨start, stop, hstart, hloop, -⟩
  · exact ⟨[], hnone⟩
  · rw [hloop]
    apply sniLoop_total
    · exact Nat.min_le_right ..
    · exact Nat.succ_pos _
    · omega

/-! ### The context comes back -/

theorem contextRead_contextBytes {rc : KndRedirectCtx} (h : rc.origAddr.length = 16) :
    contextRead (contextBytes rc) = rc := by
  have hlies := lies_pointer (contextBytes rc) []
  rw [List.append_nil] at hlies
  have haddr : fixedArray 0 16 rc.origAddr = rc.origAddr := by
    rw [fixedArray, List.take_of_length_le (by omega), h, Nat.sub_self, List.replicate_zero,
      List.append_nil]
  rw [contextBytes, haddr] at hlies
  simp only [lies_append, lies_cons, List.length_append, List.length_cons, List.length_nil,
    leBytes_length] at hlies
  obtain ⟨⟨⟨hversion, -⟩, hport⟩, haddress⟩ := hlies
  have hread : readBytes _ 4 rc.origAddr.length = rc.origAddr := haddress
  rw [h] at hread
  rw [contextBytes, haddr, contextRead, hversion, hport.uint16, hread]

/-- The dotted text fits into its buffer. -/
theorem snprintf_ipText (addr : Bytes) : snprintf 64 (ipText addr) = ipText addr := by
  have hshort (b : UInt8) : (decimal b.toNat).length ≤ 3 := by
    have hall : ∀ n < 256, (decimal n).length ≤ 3 := by decide +kernel
    exact hall _ b.toNat_lt
  apply List.take_of_length_le
  have h0 := hshort (addr.getD 0 0)
  have h1 := hshort (addr.getD 1 0)
  have h2 := hshort (addr.getD 2 0)
  have h3 := hshort (addr.getD 3 0)
  have hdot : (text ".").length = 1 := rfl
  simp only [ipText, List.length_append, hdot]
  omega

/-! ### Redirected connections -/

/-- The proxy takes the connection for one to `c`, and dials this as soon as the handshake is over. -/
structure Served (c : Connect) (p : Peer) : Prop where
  transparent : ∃ certHost, dispatch p =
    some (.transparent (ipText (octets c.remoteAddr)) certHost c.remotePort)
  dials : ∃ certHost, ∀ serves, handleConn serves p =
    some (if serves certHost then .dialed (ipText (octets c.remoteAddr)) c.remotePort else .closed)

theorem dispatch_tls {p : Peer} {rc : KndRedirectCtx} (haddr : rc.origAddr.length = 16)
    (hcontext : p.context = some (contextBytes rc)) (hfirst : p.sent.head? = some 0x16) :
    ∃ certHost, dispatch p = some (.transparent (ipText rc.origAddr) certHost rc.origPort) := by
  obtain ⟨rest, hsent⟩ : ∃ rest, p.sent = 0x16 :: rest := by
    cases hp : p.sent with
    | nil => rw [hp] at hfirst; cases hfirst
    | cons c rest =>
      rw [hp] at hfirst
      exact ⟨rest, by rw [Option.some.inj hfirst]⟩
  obtain ⟨name, hname⟩ := parseSni_total (p.sent.take (min 2048 (1 + p.arrived)))
  have hquery : queryOriginalDest p.context = some rc := by
    have hlen : ¬(contextBytes rc).length < sizeofKndRedirectCtx := by
      have hfixed : (fixedArray 0 16 rc.origAddr).length = 16 := by
        simp [fixedArray, haddr]
      simp [contextBytes, sizeofKndRedirectCtx, hfixed]
    rw [hcontext]
    simp only [queryOriginalDest, if_neg hlen, contextRead_contextBytes haddr]
  unfold dispatch
  rw [hsent] at hname ⊢
  simp only [if_true, hname, Option.bind_eq_bind, Option.bind_some, hquery, snprintf_ipText]
  exact ⟨_, rfl⟩

theorem dispatch_other {p : Peer} (hfirst : p.sent.head? ≠ some 0x16) (host certHost : Bytes)
    (port : UInt16) : dispatch p ≠ some (.transparent host certHost port) := by
  unfold dispatch
  cases hsent : p.sent with
  | nil => simp
  | cons first rest =>
    have hne : first ≠ 0x16 := by
      rintro rfl
      rw [hsent] at hfirst
      exact hfirst rfl
    simp only [if_neg hne]
    split
    · simp
    · split <;> simp

/-- A redirected connection is served as one exactly when its client speaks first, and with a TLS
record. -/
theorem served_iff {s : RedirectState} {env : ClassifyEnv} {c : Connect} {r : Redirected}
    (hr : kndClassifyConnectRedirect s env c = some r) {p : Peer}
    (hcontext : p.context = some (contextBytes r.context)) :
    Served c p ↔ p.sent.head? = some 0x16 := by
  constructor
  · rintro ⟨⟨certHost, hdispatch⟩, -⟩
    by_contra hfirst
    exact dispatch_other hfirst _ _ _ hdispatch
  · intro hfirst
    obtain ⟨-, rfl⟩ := classify_eq_some.mp hr
    obtain ⟨certHost, hdispatch⟩ := dispatch_tls (by simp [fixedArray, octets]) hcontext hfirst
    have haddr : ipText (fixedArray 0 16 (octets c.remoteAddr)) = ipText (octets c.remoteAddr) :=
      rfl
    rw [haddr] at hdispatch
    refine ⟨⟨certHost, hdispatch⟩, certHost, fun serves => ?_⟩
    unfold handleConn
    rw [hdispatch, Option.map_some]

/-- What is dialed is the upstream connect of the redirect chain. -/
theorem dispatch_upstream {s : RedirectState} {env : ClassifyEnv} {conn : ConnEnv} {c d : Connect}
    {r : Redirected} (hr : kndClassifyConnectRedirect s env c = some r)
    (hd : Redirect.handleConn conn r.context = some d) {p : Peer}
    (hcontext : p.context = some (contextBytes r.context)) (hfirst : p.sent.head? = some 0x16) :
    Served d p := by
  rw [upstream_eq hr hd]
  exact (served_iff hr hcontext).mpr hfirst

def plainHttp : Peer where
  sent := text "GET / HTTP/1.1\r\nHost: a\r\n\r\n"
  arrived := 0
  context := some (contextBytes ⟨kndIPv4, 80, fixedArray 0 16 (octets 0x5DB8D822)⟩)

def tlsClient : Peer where
  sent := [0x16, 0x03, 0x01]
  arrived := 2
  context := some (contextBytes ⟨kndIPv4, 443, fixedArray 0 16 (octets 0x5DB8D822)⟩)

/-- A client that begins a handshake. -/
theorem served_iff_tls :
    Served ⟨kndProtoTcp, 0x5DB8D822, 443⟩ tlsClient ↔ tlsClient.sent.head? = some 0x16 :=
  @served_iff ⟨true, 8888, true⟩ ⟨true, true, true, true⟩ _
    ⟨kndInaddrLoopback, 8888, kndIPv4, 443, fixedArray 0 16 (octets 0x5DB8D822)⟩
    (by decide +kernel) _ rfl

/-- A plain request to port 80 is redirected, and refused as one to an explicit proxy. -/
theorem redirected_http_refused :
    (kndClassifyConnectRedirect ⟨true, 8888, true⟩ ⟨true, true, true, true⟩
        ⟨kndProtoTcp, 0x5DB8D822, 80⟩).map (fun r => some (contextBytes r.context)) =
      some plainHttp.context ∧
    dispatch plainHttp = some .notImplemented ∧
    (∀ serves, handleConn serves plainHttp = some .refused) ∧
    ¬Served ⟨kndProtoTcp, 0x5DB8D822, 80⟩ plainHttp := by
  have hdispatch : dispatch plainHttp = some .notImplemented := by decide +kernel
  refine ⟨by decide +kernel, hdispatch, fun serves => ?_, ?_⟩
  · unfold handleConn
    rw [hdispatch]
    rfl
  · rintro ⟨⟨certHost, htransparent⟩, -⟩
    rw [hdispatch] at htransparent
    cases htransparent

end NetDebugger.Proxy
