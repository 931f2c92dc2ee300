import Mathlib.Data.UInt
import NetDebugger.Protocol

/-! Transparent redirection: `KndClassifyConnectRedirect` sends an outbound connect to the local
proxy, and the proxy dials the destination that the driver recorded.  The proxy's own connect is
classified like any other, so the two programs form a chain. -/

namespace NetDebugger.Redirect

/-- `KND_REDIRECT_CTX`. The address is in network order, IPv4 in the first four octets. -/
structure KndRedirectCtx where
  ipVersion : UInt8
  origPort : UInt16
  origAddr : List UInt8
deriving DecidableEq

/-- `KND_REDIRECT_IN`. -/
structure KndRedirectIn where
  enable : UInt32
  proxyPort : UInt16

/-- The redirection part of `KND_DEVICE_CONTEXT`. -/
structure RedirectState where
  redirectEnable : Bool
  redirectPort : UInt16
  redirectHandleCreated : Bool

/-- `IOCTL_KND_SET_REDIRECT` with a large enough buffer. -/
def kndSetRedirect (s : RedirectState) (rq : KndRedirectIn) : RedirectState :=
  { s with redirectPort := rq.proxyPort, redirectEnable := rq.enable ≠ 0 }

/-- An outbound IPv4 connect, the address in host order. -/
structure Connect where
  protocol : UInt8
  remoteAddr : UInt32
  remotePort : UInt16
deriving DecidableEq

/-- What the filter engine and the pool answer during one classification. -/
structure ClassifyEnv where
  actionWrite : Bool
  acquireHandle : Bool
  writablePointer : Bool
  pool : Bool

/-- The modified layer data: where the connect goes instead, and the context it carries. -/
structure Redirected where
  remoteAddr : UInt32
  remotePort : UInt16
  context : KndRedirectCtx
deriving DecidableEq

def kndInaddrLoopback : UInt32 := 0x7F000001

/-- `KndClassifyConnectRedirect`: `none` permits the connect as it is. -/
def kndClassifyConnectRedirect (s : RedirectState) (env : ClassifyEnv) (c : Connect) :
    Option Redirected :=
  if !env.actionWrite then none
  else if !s.redirectEnable || !s.redirectHandleCreated then none
  else if c.protocol ≠ kndProtoTcp then none
  else if c.remotePort ≠ 443 ∧ c.remotePort ≠ 80 then none
  else if c.remotePort = s.redirectPort then none
  else if !env.acquireHandle then none
  else if !env.writablePointer then none
  else if !env.pool then none
  else some
    { remoteAddr := kndInaddrLoopback
      remotePort := s.redirectPort
      context :=
        { ipVersion := kndIPv4
          origPort := c.remotePort
          origAddr := fixedArray 0 16 (octets c.remoteAddr) } }

/-- What the sockets, the CA and the TLS library answer to `handleConn` on a connection that
starts with a TLS record, up to the upstream connect. -/
structure ConnEnv where
  peeked : Bool
  query : Bool
  certificate : Bool
  handshake : Bool

/-- The address that the dotted text of the first four octets names. -/
def dottedAddr (addr : List UInt8) : UInt32 :=
  UInt32.ofNat (addr.take 4 |>.foldl (fun n b => n * 256 + b.toNat) 0)

/-- `KndMitmProxy::handleConn` on a redirected TLS connection: the upstream connect it makes. -/
def handleConn (env : ConnEnv) (rc : KndRedirectCtx) : Option Connect :=
  if !env.peeked then none
  else if !env.query then none
  else if !env.certificate then none
  else if !env.handshake then none
  else some
    { protocol := kndProtoTcp, remoteAddr := dottedAddr rc.origAddr, remotePort := rc.origPort }

/-- The answers of the environment to one connect and to the connection that it becomes. -/
structure Link where
  classify : ClassifyEnv
  conn : ConnEnv

/-- What became of a connect. -/
inductive Hop
  | direct (c : Connect)
  | redirected (c : Connect)
deriving DecidableEq

/-- What one connect causes within `n` classifications, from link `k` on. -/
def hops (s : RedirectState) (env : Nat → Link) : Nat → Nat → Connect → List Hop
  | 0, _, _ => []
  | n + 1, k, c =>
    match kndClassifyConnectRedirect s (env k).classify c with
    | none => [.direct c]
    | some r =>
      match handleConn (env k).conn r.context with
      | none => [.redirected c]
      | some d => .redirected c :: hops s env n (k + 1) d

def redirects : List Hop → Nat
  | [] => 0
  | .direct _ :: hs => redirects hs
  | .redirected _ :: hs => redirects hs + 1

/-- One application connect causes at most one redirect, and the proxy's connect is permitted and
has the original destination. -/
structure NoLoop (s : RedirectState) (env : Nat → Link) (c : Connect) : Prop where
  once : ∀ n, redirects (hops s env n 0 c) ≤ 1
  upstream : ∀ r d, kndClassifyConnectRedirect s (env 0).classify c = some r →
    handleConn (env 0).conn r.context = some d →
    kndClassifyConnectRedirect s (env 1).classify d = none ∧
      d.remoteAddr = c.remoteAddr ∧ d.remotePort = c.remotePort

/-- The connect takes none of the early returns. -/
structure Eligible (s : RedirectState) (env : ClassifyEnv) (c : Connect) : Prop where
  enabled : s.redirectEnable = true ∧ s.redirectHandleCreated = true
  protocol : c.protocol = kndProtoTcp
  port : c.remotePort = 443 ∨ c.remotePort = 80
  guard : c.remotePort ≠ s.redirectPort
  answers : env.actionWrite = true ∧ env.acquireHandle = true ∧ env.writablePointer = true ∧
    env.pool = true

/-- The proxy gets as far as its upstream connect. -/
structure ConnEnv.Dials (env : ConnEnv) : Prop where
  peeked : env.peeked = true
  query : env.query = true
  certificate : env.certificate = true
  handshake : env.handshake = true

theorem classify_eq_some {s : RedirectState} {env : ClassifyEnv} {c : Connect} {r : Redirected} :
    kndClassifyConnectRedirect s env c = some r ↔
      Eligible s env c ∧ r = ⟨kndInaddrLoopback, s.redirectPort,
        ⟨kndIPv4, c.remotePort, fixedArray 0 16 (octets c.remoteAddr)⟩⟩ := by
  constructor
  · intro h
    unfold kndClassifyConnectRedirect at h
    repeat' split at h
    all_goals cases h
    rename_i hwrite henabled hproto hport hguard hacquire hpointer hpool
    refine ⟨⟨?_, ?_, ?_, hguard, ?_⟩, rfl⟩
    · simpa using henabled
    · simpa using hproto
    · rw [not_and_or, not_not, not_not] at hport
      exact hport
    · simp_all
  · rintro ⟨h, rfl⟩
    have hport : ¬(c.remotePort ≠ 443 ∧ c.remotePort ≠ 80) := by
      rw [not_and_or, not_not, not_not]
      exact h.port
    obtain ⟨hwrite, hacquire, hpointer, hpool⟩ := h.answers
    unfold kndClassifyConnectRedirect
    rw [if_neg (by simp [hwrite]), if_neg (by simp [h.enabled]), if_neg (not_not.mpr h.protocol),
      if_neg hport, if_neg h.guard, if_neg (by simp [hacquire]), if_neg (by simp [hpointer]),
      if_neg (by simp [hpool])]

theorem classify_eq_none {s : RedirectState} {env : ClassifyEnv} {c : Connect} :
    kndClassifyConnectRedirect s env c = none ↔ ¬Eligible s env c := by
  constructor
  · intro h heligible
    rw [classify_eq_some.mpr ⟨heligible, rfl⟩] at h
    cases h
  · intro h
    by_contra hne
    obtain ⟨r, hr⟩ := Option.ne_none_iff_exists'.mp hne
    exact h (classify_eq_some.mp hr).1

theorem handleConn_eq_some {env : ConnEnv} {rc : KndRedirectCtx} {d : Connect} :
    handleConn env rc = some d ↔
      env.Dials ∧ d = ⟨kndProtoTcp, dottedAddr rc.origAddr, rc.origPort⟩ := by
  constructor
  · intro h
    unfold handleConn at h
    repeat' split at h
    all_goals cases h
    refine ⟨⟨?_, ?_, ?_, ?_⟩, rfl⟩ <;> simp_all
  · rintro ⟨h, rfl⟩
    simp [handleConn, h.peeked, h.query, h.certificate, h.handshake]

/-- The proxy reads back the address that the driver stored. -/
theorem dottedAddr_octets (a : UInt32) : dottedAddr (fixedArray 0 16 (octets a)) = a := by
  have hlt := a.toNat_lt
  apply UInt32.toNat_inj.mp
  simp only [dottedAddr, fixedArray, octets, List.take_succ_cons, List.take_nil, List.cons_append,
    List.foldl_cons, List.take_zero, List.foldl_nil]
  simp only [UInt32.toNat_toUInt8, UInt32.toNat_shiftRight, UInt32.reduceToNat, Nat.shiftRight_eq_div_pow,
    UInt32.toNat_ofNat', Nat.reduceMod, Nat.reducePow]
  omega

/-- The upstream connect of a redirected connect is the connect itself. -/
theorem upstream_eq {s : RedirectState} {env : ClassifyEnv} {conn : ConnEnv} {c d : Connect}
    {r : Redirected} (hr : kndClassifyConnectRedirect s env c = some r)
    (hd : handleConn conn r.context = some d) : d = c := by
  obtain ⟨h, rfl⟩ := classify_eq_some.mp hr
  obtain ⟨-, rfl⟩ := handleConn_eq_some.mp hd
  obtain ⟨protocol, addr, port⟩ := c
  obtain rfl : protocol = kndProtoTcp := h.protocol
  simp only [dottedAddr_octets]

/-- With every answer positive, an eligible connect is redirected for as long as the chain is
followed. -/
theorem redirects_unbounded {s : RedirectState} {env : Nat → Link} {c : Connect}
    (heligible : ∀ k, Eligible s (env k).classify c) (hdials : ∀ k, (env k).conn.Dials)
    (n k : Nat) : redirects (hops s env n k c) = n := by
  induction n generalizing k with
  | zero => rfl
  | succ n ih =>
    obtain ⟨r, hr⟩ : ∃ r, kndClassifyConnectRedirect s (env k).classify c = some r :=
      ⟨_, classify_eq_some.mpr ⟨heligible k, rfl⟩⟩
    obtain ⟨d, hd⟩ : ∃ d, handleConn (env k).conn r.context = some d :=
      ⟨_, handleConn_eq_some.mpr ⟨hdials k, rfl⟩⟩
    obtain rfl := upstream_eq hr hd
    simp only [hops, hr, hd, redirects, ih]

/-- A second redirect needs the same connect to be eligible twice, with an answering proxy in
between, and nothing else prevents it. -/
theorem noLoop_iff (s₀ : RedirectState) (rq : KndRedirectIn) (env : Nat → Link) (c : Connect) :
    let s := kndSetRedirect s₀ rq
    NoLoop s env c ↔
      ¬(Eligible s (env 0).classify c ∧ (env 0).conn.Dials ∧ Eligible s (env 1).classify c) := by
  intro s
  constructor
  · rintro hloop ⟨hfirst, hdials, hsecond⟩
    obtain ⟨r, hr⟩ : ∃ r, kndClassifyConnectRedirect s (env 0).classify c = some r :=
      ⟨_, classify_eq_some.mpr ⟨hfirst, rfl⟩⟩
    obtain ⟨d, hd⟩ : ∃ d, handleConn (env 0).conn r.context = some d :=
      ⟨_, handleConn_eq_some.mpr ⟨hdials, rfl⟩⟩
    have hnone := (hloop.upstream _ _ hr hd).1
    rw [upstream_eq hr hd] at hnone
    exact classify_eq_none.mp hnone hsecond
  · intro h
    have hupstream : ∀ r d, kndClassifyConnectRedirect s (env 0).classify c = some r →
        handleConn (env 0).conn r.context = some d →
        d = c ∧ kndClassifyConnectRedirect s (env 1).classify d = none := by
      intro r d hr hd
      obtain rfl := upstream_eq hr hd
      exact ⟨rfl, classify_eq_none.mpr fun hsecond =>
        h ⟨(classify_eq_some.mp hr).1, (handleConn_eq_some.mp hd).1, hsecond⟩⟩
    constructor
    · intro n
      match n with
      | 0 => exact Nat.zero_le _
      | n + 1 =>
        cases hr : kndClassifyConnectRedirect s (env 0).classify c with
        | none => simp [hops, hr, redirects]
        | some r =>
          cases hd : handleConn (env 0).conn r.context with
          | none => simp [hops, hr, hd, redirects]
          | some d =>
            have hnone := (hupstream r d hr hd).2
            match n with
            | 0 => simp [hops, hr, hd, redirects]
            | n + 1 => simp [hops, hr, hd, hnone, redirects]
    · intro r d hr hd
      obtain ⟨rfl, hnone⟩ := hupstream r d hr hd
      exact ⟨hnone, rfl, rfl⟩

/-- A browser connects to port 443 and the proxy listens on 8888: its upstream connect comes back
to it. -/
theorem https_loops :
    let s := kndSetRedirect ⟨false, 0, true⟩ ⟨1, 8888⟩
    let yes : Link := ⟨⟨true, true, true, true⟩, ⟨true, true, true, true⟩⟩
    let c : Connect := ⟨kndProtoTcp, 0x5DB8D822, 443⟩
    hops s (fun _ => yes) 3 0 c = [.redirected c, .redirected c, .redirected c] ∧
      ¬NoLoop s (fun _ => yes) c := by
  intro s yes c
  refine ⟨by decide +kernel, fun h => ?_⟩
  have hthree := h.once 3
  revert hthree
  decide +kernel

end NetDebugger.Redirect
