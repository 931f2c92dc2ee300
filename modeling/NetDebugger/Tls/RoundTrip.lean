import NetDebugger.Tls.Connection

/-! `TlsDecryptFlow` undoes the encryption of both sides: what is needed of a capture is the record
that carries the hello, and each protected record that follows it whole. -/

namespace NetDebugger.Tls

open Lib

/-- The suites of TLS 1.2 with AES-GCM: the length of the key, and the hash of the PRF. -/
def tls12Suites : List (UInt16 × SuiteInfo) :=
  [(0xC02F, ⟨16, .sha256, true, false⟩), (0xC02B, ⟨16, .sha256, true, false⟩),
    (0x009C, ⟨16, .sha256, true, false⟩), (0xC030, ⟨32, .sha384, true, false⟩),
    (0xC02C, ⟨32, .sha384, true, false⟩), (0x009D, ⟨32, .sha384, true, false⟩)]

theorem lookupSuite_tls12 {cs : UInt16} {si : SuiteInfo} (h : (cs, si) ∈ tls12Suites) :
    lookupSuite cs = some si ∧ si.tls13 = false ∧ si.gcm = true ∧
      (si.keyLen = 16 ∨ si.keyLen = 32) := by
  simp only [tls12Suites, List.mem_cons, List.not_mem_nil, or_false, Prod.mk.injEq] at h
  rcases h with ⟨rfl, rfl⟩ | ⟨rfl, rfl⟩ | ⟨rfl, rfl⟩ | ⟨rfl, rfl⟩ | ⟨rfl, rfl⟩ | ⟨rfl, rfl⟩ <;>
    exact ⟨rfl, by decide⟩

def ClientHello.message (ch : ClientHello) : Frame UInt8 := messageFrame 1 ch.body

def ServerHello.message (sh : ServerHello) : Frame UInt8 := messageFrame 2 sh.body

theorem ClientHello.random_slice (ch : ClientHello) :
    34 ≤ ch.body.length ∧ slice ch.body 2 32 = some ch.random := by
  have hrandom := ch.random_length
  constructor
  · simp [ClientHello.body, hrandom]
    omega
  · have hmid := slice_mid (beBytes 2 ch.version.toNat) ch.random
      (UInt8.ofNat ch.sessionId.length :: ch.sessionId ++ beBytes 2 (2 * ch.cipherSuites.length) ++
        ch.cipherSuites.flatMap (beBytes 2 ·.toNat) ++ UInt8.ofNat ch.compression.length ::
        ch.compression ++ extensionBytes ch.extensions)
    rwa [beBytes_length, hrandom] at hmid

/-- What `TlsDecryptFlow` reads of a ServerHello. -/
structure ServerHello.Reads (sh : ServerHello) : Prop where
  length : 2 + 32 + 1 + sh.sessionId.length + 2 ≤ sh.body.length
  random : slice sh.body 2 32 = some sh.random
  sidLen : sh.body[2 + 32]? = some (UInt8.ofNat sh.sessionId.length)
  suiteHigh : sh.body[2 + 32 + 1 + sh.sessionId.length]? =
    some (UInt8.ofNat (sh.cipherSuite.toNat / 256))
  suiteLow : sh.body[2 + 32 + 1 + sh.sessionId.length + 1]? =
    some (UInt8.ofNat sh.cipherSuite.toNat)

theorem ServerHello.reads (sh : ServerHello) : sh.Reads := by
  have hrandom := sh.random_length
  have hsid : sh.body = (beBytes 2 sh.version.toNat ++ sh.random) ++
      (UInt8.ofNat sh.sessionId.length :: (sh.sessionId ++
        (beBytes 2 sh.cipherSuite.toNat ++ (sh.compression :: extensionBytes sh.extensions)))) := by
    simp [ServerHello.body]
  have hsuite : sh.body = (beBytes 2 sh.version.toNat ++ sh.random ++
      (UInt8.ofNat sh.sessionId.length :: sh.sessionId)) ++
      (beBytes 2 sh.cipherSuite.toNat ++ (sh.compression :: extensionBytes sh.extensions)) := by
    simp [ServerHello.body]
  have hlen : (beBytes 2 sh.version.toNat ++ sh.random ++
      (UInt8.ofNat sh.sessionId.length :: sh.sessionId)).length =
      2 + 32 + 1 + sh.sessionId.length := by
    simp [hrandom]
    omega
  constructor
  case length => rw [hsuite, List.length_append, hlen, List.length_append, beBytes_length]; omega
  case random =>
    have hmid := slice_mid (beBytes 2 sh.version.toNat) sh.random
      (UInt8.ofNat sh.sessionId.length :: (sh.sessionId ++
        (beBytes 2 sh.cipherSuite.toNat ++ (sh.compression :: extensionBytes sh.extensions))))
    rwa [beBytes_length, hrandom] at hmid
  case sidLen =>
    have hlen34 : (beBytes 2 sh.version.toNat ++ sh.random).length = 2 + 32 := by simp [hrandom]
    rw [hsid, ← hlen34, getElem?_mid_zero]
    rfl
  case suiteHigh =>
    rw [hsuite, ← hlen, getElem?_mid_zero]
    rfl
  case suiteLow =>
    rw [hsuite, ← hlen, getElem?_mid]
    rfl

/-- `TlsDecryptFlow` returns the application data of what was captured whole on either side. -/
theorem tlsDecryptFlow_captured {A : Gcm} (hA : A.Lawful) (H : Hmac) (keylog : TlsKeyLog)
    (ch : ClientHello) (sh : ServerHello) {si : SuiteInfo}
    (hsuite : (sh.cipherSuite, si) ∈ tls12Suites) {master : List UInt8}
    (hmaster : master.length = 48) (hkeylog : keylog.masterSecret ch.random = master) {x y : Side}
    (hx : x.Ok ch.message) (hy : y.Ok sh.message) {m n : Nat}
    (hm : (x.helloRecord ch.message).frame.whole.length ≤ m)
    (hn : (y.helloRecord sh.message).frame.whole.length ≤ n) :
    let k := rfcKeys H master ch.random sh.random si
    tlsDecryptFlow A H ((x.stream ch.message A k.cKey k.cIV).take m)
        ((y.stream sh.message A k.sKey k.sIV).take n) keylog =
      some ⟨true, [], sh.cipherSuite, false, x.capturedData ch.message A k.cKey k.cIV m,
        y.capturedData sh.message A k.sKey k.sIV n⟩ := by
  intro k
  obtain ⟨hlookup, htls13, hgcm, hkeyLen⟩ := lookupSuite_tls12 hsuite
  obtain ⟨hcKey, hsKey, hcIV, hsIV⟩ : k.cKey.length = si.keyLen ∧ k.sKey.length = si.keyLen ∧
      k.cIV.length = 4 ∧ k.sIV.length = 4 := rfcKeys_length H master ch.random sh.random si
  rw [← hcKey] at hkeyLen
  have hkeyLen' := hkeyLen
  rw [hcKey, ← hsKey] at hkeyLen'
  have hclient := ch.random_slice
  have hserver := sh.reads
  have hsid : (UInt8.ofNat sh.sessionId.length).toNat = sh.sessionId.length := by
    have hle := sh.sessionId_length
    rw [UInt8.toNat_ofNat', Nat.mod_eq_of_lt (by omega)]
  have hcs : UInt16.ofNat (beNat [UInt8.ofNat (sh.cipherSuite.toNat / 256),
      UInt8.ofNat sh.cipherSuite.toNat]) = sh.cipherSuite := by
    rw [← beBytes_two, beNat_beBytes sh.cipherSuite.toNat_lt, UInt16.ofNat_toNat]
  have hlen := hserver.length
  have hfindClient : findHandshake 1 ((x.records ch.message A k.cKey k.cIV).take
      (x.capturedRecords ch.message A k.cKey k.cIV m)) = some (some ch.body) :=
    findHandshake_records k.cKey hx (capturedRecords_pos k.cKey hm)
  have hfindServer : findHandshake 2 ((y.records sh.message A k.sKey k.sIV).take
      (y.capturedRecords sh.message A k.sKey k.sIV n)) = some (some sh.body) :=
    findHandshake_records k.sKey hy (capturedRecords_pos k.sKey hn)
  unfold tlsDecryptFlow
  rw [parseRecords_stream k.cKey hA hx, parseRecords_stream k.sKey hA hy]
  dsimp only [Option.bind_eq_bind, Option.bind_some]
  rw [hfindClient, Option.bind_some, hfindServer]
  dsimp only
  rw [if_neg (by omega), Option.bind_some]
  dsimp only
  rw [if_neg (by omega), hclient.2, hserver.random, hserver.sidLen]
  simp only [Option.bind_some]
  rw [hsid, if_neg (by omega), hserver.suiteHigh, hserver.suiteLow]
  simp only [Option.bind_some]
  rw [hcs, hlookup]
  simp only [htls13, hgcm, hkeylog, hmaster, Bool.false_eq_true, Bool.not_true, if_false, ne_eq,
    not_true_eq_false]
  rw [deriveKeyBlock_eq, Option.bind_some, decryptDir_take k.cKey hA hkeyLen hcIV hx,
    Option.bind_some, decryptDir_take k.sKey hA hkeyLen' hsIV hy]
  rfl

/-! ### A short connection -/

/-- A cipher that only sums up what it authenticates. -/
def sumTag (key nonce aad pt : List UInt8) : List UInt8 :=
  List.replicate 16 ((key ++ nonce ++ aad ++ pt).foldl (· + ·) 0)

def sumGcm : Gcm where
  setkey key := key.length = 16 ∨ key.length = 32
  authDecrypt key nonce aad ct tag := if tag = sumTag key nonce aad ct then some ct else none
  cryptAndTag key nonce aad pt := (pt, sumTag key nonce aad pt)

theorem sumGcm_lawful : sumGcm.Lawful := by
  constructor
  case setkey => intro key hkey; exact decide_eq_true hkey
  case crypt_length => intros; rfl
  case tag_length => intros; exact List.length_replicate
  case decrypts => intros; exact if_pos rfl

/-- A keyed function of the right length. -/
def cutHmac : Hmac where
  mac md key data := fixedArray 0 md.size (data.reverse ++ key)
  length := fun _ _ _ => fixedArray_length ..

def someClient : ClientHello where
  version := 0x0303
  random := List.replicate 32 0x40
  sessionId := []
  cipherSuites := [0xC02F]
  compression := [0]
  extensions := none
  random_length := rfl
  sessionId_length := by decide
  cipherSuites_length := by decide
  compression_length := by decide
  extensions_length := by simp

def someServer : ServerHello where
  version := 0x0303
  random := List.replicate 32 0x80
  sessionId := []
  cipherSuite := 0xC02F
  compression := 0
  extensions := none
  random_length := rfl
  sessionId_length := by decide
  extensions_length := by simp

def someSecret : List UInt8 := List.replicate 48 7

def someKeylog : TlsKeyLog where
  map digits := if digits = bytesToHex someClient.random then some someSecret else none

def someKeys : DirKeys :=
  rfcKeys cutHmac someSecret someClient.random someServer.random ⟨16, .sha256, true, false⟩

/-- A request in two records, after the Finished message. -/
def clientSide : Side where
  ver := 0x0301
  rest := []
  clear := [⟨22, 0x0303, [16, 0, 0, 0]⟩]
  ccs := ⟨20, 0x0303, [1]⟩
  plains := [⟨22, List.replicate 8 0, [20, 0, 0, 0]⟩, ⟨23, List.replicate 8 1, text "GET /"⟩,
    ⟨23, List.replicate 8 2, text "index"⟩]

/-- The ServerHelloDone follows the ServerHello in its record. -/
def serverSide : Side where
  ver := 0x0303
  rest := [14, 0, 0, 0]
  clear := []
  ccs := ⟨20, 0x0303, [1]⟩
  plains := [⟨22, List.replicate 8 0, [20, 0, 0, 0]⟩, ⟨23, List.replicate 8 1, text "200"⟩]

theorem clientSide_ok : clientSide.Ok someClient.message := by
  constructor
  case hello => decide
  case clear => decide
  case ccs => decide
  case plains =>
    intro p hp
    simp only [clientSide, List.mem_cons, List.not_mem_nil, or_false] at hp
    rcases hp with rfl | rfl | rfl <;> exact ⟨by decide, by decide, by decide⟩

theorem serverSide_ok : serverSide.Ok someServer.message := by
  constructor
  case hello => decide
  case clear => decide
  case ccs => decide
  case plains =>
    intro p hp
    simp only [serverSide, List.mem_cons, List.not_mem_nil, or_false] at hp
    rcases hp with rfl | rfl <;> exact ⟨by decide, by decide, by decide⟩

def clientStream : List UInt8 :=
  clientSide.stream someClient.message sumGcm someKeys.cKey someKeys.cIV

def serverStream : List UInt8 :=
  serverSide.stream someServer.message sumGcm someKeys.sKey someKeys.sIV

/-- The last record of the client lacks a byte. -/
theorem tlsDecryptFlow_captured_short :
    tlsDecryptFlow sumGcm cutHmac (clientStream.take (clientStream.length - 1))
        (serverStream.take serverStream.length) someKeylog =
      some ⟨true, [], 0xC02F, false, text "GET /", text "200"⟩ := by
  have hkeylog : someKeylog.masterSecret someClient.random = someSecret := by
    simp [TlsKeyLog.masterSecret, someKeylog]
  have hm : (clientSide.helloRecord someClient.message).frame.whole.length ≤
      clientStream.length - 1 := by decide +kernel
  have hn : (serverSide.helloRecord someServer.message).frame.whole.length ≤
      serverStream.length := by decide +kernel
  have hout : clientSide.capturedData someClient.message sumGcm someKeys.cKey someKeys.cIV
      (clientStream.length - 1) = text "GET /" := by decide +kernel
  have hin : serverSide.capturedData someServer.message sumGcm someKeys.sKey someKeys.sIV
      serverStream.length = text "200" := by decide +kernel
  have hflow := tlsDecryptFlow_captured sumGcm_lawful cutHmac someKeylog someClient someServer
    (List.mem_cons_self ..) (show someSecret.length = 48 from rfl) hkeylog clientSide_ok
    serverSide_ok hm hn
  rw [← hout, ← hin]
  exact hflow

/-- A cut behind the ServerHello, but inside its record, hides it. -/
theorem tlsDecryptFlow_cut_in_record : ¬∀ m n, 5 + someClient.message.whole.length ≤ m →
    5 + someServer.message.whole.length ≤ n →
    ∃ r, tlsDecryptFlow sumGcm cutHmac (clientStream.take m) (serverStream.take n) someKeylog =
      some r ∧ r.ok = true := by
  intro h
  obtain ⟨r, hr, hok⟩ := h clientStream.length (5 + someServer.message.whole.length)
    (by decide +kernel) (Nat.le_refl _)
  have hnote : tlsDecryptFlow sumGcm cutHmac (clientStream.take clientStream.length)
      (serverStream.take (5 + someServer.message.whole.length)) someKeylog =
      some (.failed (text "no ServerHello in the inbound stream") 0 false) := by decide +kernel
  rw [hnote] at hr
  obtain rfl := Option.some.inj hr
  cases hok

end NetDebugger.Tls
