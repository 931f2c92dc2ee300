import NetDebugger.Tls.Prf

/-! The record decryptor of `tls_decrypt.cpp`.  Streams are lists of bytes that are read at indices;
`none` is an access out of bounds or a loop that does not end.  AES-GCM is a library's, and a
parameter. -/

namespace NetDebugger.Tls

open Lib

/-- The functions of `mbedtls_gcm_context`: whether a key can be set, and authenticated decryption
and encryption under a key, a nonce and additional data. -/
structure Gcm where
  setkey : List UInt8 → Bool
  authDecrypt : List UInt8 → List UInt8 → List UInt8 → List UInt8 → List UInt8 →
    Option (List UInt8)
  cryptAndTag : List UInt8 → List UInt8 → List UInt8 → List UInt8 → List UInt8 × List UInt8

/-- A record of a stream. The payload is a pointer into the stream. -/
structure Record where
  type : UInt8
  ver : UInt16
  payload : List UInt8
deriving DecidableEq

/-- `TlsKeyLog`: from the hex digits of a client random to a secret. -/
structure TlsKeyLog where
  map : List UInt8 → Option (List UInt8)

def bytesToHex (bs : List UInt8) : List UInt8 :=
  bs.flatMap fun b => hex (b.toNat / 16) ++ hex (b.toNat % 16)

def TlsKeyLog.masterSecret (k : TlsKeyLog) (clientRandom : List UInt8) : List UInt8 :=
  (k.map (bytesToHex clientRandom)).getD []

/-! ### Records -/

def parseRecordsLoop (s : List UInt8) : Nat → Nat → List Record → Option (List Record)
  | 0, _, _ => none
  | fuel + 1, i, recs =>
    if i + 5 ≤ s.length then do
      let type ← s[i]?
      let v1 ← s[i + 1]?
      let v0 ← s[i + 2]?
      let l1 ← s[i + 3]?
      let l0 ← s[i + 4]?
      let ver := UInt16.ofNat (beNat [v1, v0])
      let len := beNat [l1, l0]
      if i + 5 + len > s.length then some recs
      else
        let payload ← slice s (i + 5) len
        parseRecordsLoop s fuel (i + 5 + len) (recs ++ [⟨type, ver, payload⟩])
    else some recs

def parseRecords (s : List UInt8) : Option (List Record) := parseRecordsLoop s (s.length + 1) 0 []

/-- The handshake messages of one record. -/
def findInRecord (wantType : UInt8) (p : List UInt8) : Nat → Nat → Option (Option (List UInt8))
  | 0, _ => none
  | fuel + 1, i =>
    if i + 4 ≤ p.length then do
      let ht ← p[i]?
      let l2 ← p[i + 1]?
      let l1 ← p[i + 2]?
      let l0 ← p[i + 3]?
      let hl := beNat [l2, l1, l0]
      if i + 4 + hl > p.length then some none
      else if ht = wantType then
        let body ← slice p (i + 4) hl
        some (some body)
      else findInRecord wantType p fuel (i + 4 + hl)
    else some none

/-- The body of the first message of the type in a record of type 22. -/
def findHandshake (wantType : UInt8) : List Record → Option (Option (List UInt8))
  | [] => some none
  | r :: recs =>
    if r.type ≠ 22 then findHandshake wantType recs
    else do
      match ← findInRecord wantType r.payload (r.payload.length + 1) 0 with
      | some body => some (some body)
      | none => findHandshake wantType recs

/-- The additional data of a record. -/
def aad (seq : UInt64) (type : UInt8) (ver : UInt16) (ctLen : Nat) : List UInt8 :=
  (List.range 8).map (fun i => (seq >>> UInt64.ofNat (56 - 8 * i)).toUInt8) ++
    [type, (ver >>> 8).toUInt8, (ver &&& 0xFF).toUInt8, UInt8.ofNat (ctLen / 256),
      UInt8.ofNat (ctLen % 256)]

section

variable (A : Gcm)

def gcmDecryptRecord (key iv4 : List UInt8) (seq : UInt64) (r : Record) :
    Option (Option (List UInt8)) :=
  if r.payload.length < 8 + 16 then some none
  else do
    let explicitN ← slice r.payload 0 8
    let ctLen := r.payload.length - 8 - 16
    let ct ← slice r.payload 8 ctLen
    let tag ← slice r.payload (r.payload.length - 16) 16
    let salt ← slice iv4 0 4
    some (A.authDecrypt key (salt ++ explicitN) (aad seq r.type r.ver ctLen) ct tag)

/-- The loop of `DecryptDir`. It stops at the first record that does not decrypt. -/
def decryptLoop (key iv4 : List UInt8) : List Record → Bool → UInt64 → List UInt8 →
    Option (List UInt8)
  | [], _, _, out => some out
  | r :: recs, false, seq, out => decryptLoop key iv4 recs (r.type = 20) seq out
  | r :: recs, true, seq, out => do
    match ← gcmDecryptRecord A key iv4 seq r with
    | none => some out
    | some pt => decryptLoop key iv4 recs true (seq + 1) (if r.type = 23 then out ++ pt else out)

def decryptDir (recs : List Record) (key iv4 : List UInt8) : Option (List UInt8) :=
  if !A.setkey key then some [] else decryptLoop A key iv4 recs false 0 []

structure TlsDecryptResult where
  ok : Bool
  note : List UInt8
  cipherSuite : UInt16
  isTls13 : Bool
  outPlain : List UInt8
  inPlain : List UInt8
deriving DecidableEq

def TlsDecryptResult.failed (note : List UInt8) (cipherSuite : UInt16) (isTls13 : Bool) :
    TlsDecryptResult := ⟨false, note, cipherSuite, isTls13, [], []⟩

/-- `TlsDecryptFlow`. -/
def tlsDecryptFlow (H : Hmac) (outStream inStream : List UInt8) (keylog : TlsKeyLog) :
    Option TlsDecryptResult := do
  let outRecs ← parseRecords outStream
  let inRecs ← parseRecords inStream
  let noClient := TlsDecryptResult.failed
    (text "no ClientHello (client_random) in the outbound stream") 0 false
  let some ch ← findHandshake 1 outRecs | some noClient
  if ch.length < 34 then some noClient else do
  let noServer := TlsDecryptResult.failed (text "no ServerHello in the inbound stream") 0 false
  let some sh ← findHandshake 2 inRecs | some noServer
  if sh.length < 35 then some noServer else do
  let cr ← slice ch 2 32
  let sr ← slice sh 2 32
  let sidLen ← sh[2 + 32]?
  let off := 2 + 32 + 1 + sidLen.toNat
  if off + 2 > sh.length then some (.failed (text "malformed ServerHello") 0 false) else do
  let c1 ← sh[off]?
  let c0 ← sh[off + 1]?
  let suite := UInt16.ofNat (beNat [c1, c0])
  match lookupSuite suite with
  | none => some (.failed (text "unsupported cipher suite 0x" ++ hex4 suite.toNat) suite false)
  | some si =>
    if si.tls13 then
      some (.failed (text "TLS 1.3 capture (decryptor handles TLS 1.2 GCM so far)") suite true)
    else if !si.gcm then some (.failed (text "non-GCM cipher not supported yet") suite false)
    else do
      let master := keylog.masterSecret cr
      if master.length ≠ 48 then
        some (.failed (text "no master secret for this client_random in the keylog") suite false)
      else do
        let k ← deriveKeyBlock H master cr sr si
        let outPlain ← decryptDir A outRecs k.cKey k.cIV
        let inPlain ← decryptDir A inRecs k.sKey k.sIV
        some ⟨true, [], suite, false, outPlain, inPlain⟩

end

/-! ### Records as frames -/

/-- A record header states the length of the payload in its last two bytes. -/
def recordFraming : Framing UInt8 := ⟨5, fun h => beNat (h.drop 3), by decide⟩

/-- A handshake header states the length of the message in its last three bytes. -/
def messageFraming : Framing UInt8 := ⟨4, fun h => beNat (h.drop 1), by decide⟩

def Record.frame (r : Record) : Frame UInt8 :=
  ⟨r.type :: (beBytes 2 r.ver.toNat ++ beBytes 2 r.payload.length), r.payload⟩

def messageFrame (type : UInt8) (body : List UInt8) : Frame UInt8 :=
  ⟨type :: beBytes 3 body.length, body⟩

theorem Record.frame_fits {r : Record} (h : r.payload.length < 2 ^ 16) :
    recordFraming.Fits r.frame := by
  constructor
  · simp [Record.frame, recordFraming]
  · have hdrop : r.frame.header.drop 3 = beBytes 2 r.payload.length := by
      simp [Record.frame]
    show r.payload.length = beNat (r.frame.header.drop 3)
    rw [hdrop, beNat_beBytes (by omega)]

theorem messageFrame_fits (type : UInt8) {body : List UInt8} (h : body.length < 2 ^ 24) :
    messageFraming.Fits (messageFrame type body) := by
  constructor
  · simp [messageFrame, messageFraming]
  · have hdrop : (messageFrame type body).header.drop 1 = beBytes 3 body.length := rfl
    show body.length = beNat ((messageFrame type body).header.drop 1)
    rw [hdrop, beNat_beBytes (by omega)]

theorem Record.whole_eq (r : Record) (s : List UInt8) : r.frame.whole ++ s =
    r.type :: (beBytes 2 r.ver.toNat ++ (beBytes 2 r.payload.length ++ (r.payload ++ s))) := by
  simp [Frame.whole, Record.frame]

theorem beBytes_two (n : Nat) : beBytes 2 n = [UInt8.ofNat (n / 256), UInt8.ofNat n] := rfl

theorem parseRecordsLoop_stops {t : List UInt8} (ht : recordFraming.Partial t)
    (pre : List UInt8) (fuel : Nat) (recs : List Record) :
    parseRecordsLoop (pre ++ t) (fuel + 1) pre.length recs = some recs := by
  unfold parseRecordsLoop
  split
  · rename_i hle
    rw [List.length_append, Nat.add_le_add_iff_left] at hle
    match t, hle, ht with
    | a :: b :: c :: d :: e :: rest, hle, ht =>
      have hlt : rest.length + 5 < 5 + beNat [d, e] := ht (by simp [recordFraming])
      have hcut : pre.length + 5 + beNat [d, e] > (pre ++ a :: b :: c :: d :: e :: rest).length := by
        simp only [List.length_append, List.length_cons]
        omega
      simp only [getElem?_mid, getElem?_mid_zero, List.getElem?_cons_zero,
        List.getElem?_cons_succ, Option.bind_eq_bind, Option.bind_some]
      rw [if_pos hcut]
  · rfl

theorem parseRecordsLoop_frame {r : Record} (hr : r.payload.length < 2 ^ 16)
    (pre s : List UInt8) (fuel : Nat) (recs : List Record) :
    parseRecordsLoop (pre ++ (r.frame.whole ++ s)) (fuel + 1) pre.length recs =
      parseRecordsLoop (pre ++ r.frame.whole ++ s) fuel (pre ++ r.frame.whole).length
        (recs ++ [r]) := by
  have hlen : beNat [UInt8.ofNat (r.payload.length / 256), UInt8.ofNat r.payload.length] =
      r.payload.length := by
    rw [← beBytes_two, beNat_beBytes (by omega)]
  have hver : UInt16.ofNat (beNat [UInt8.ofNat (r.ver.toNat / 256), UInt8.ofNat r.ver.toNat]) =
      r.ver := by
    rw [← beBytes_two, beNat_beBytes r.ver.toNat_lt, UInt16.ofNat_toNat]
  have hwhole : (pre ++ r.frame.whole).length = pre.length + 5 + r.payload.length := by
    simp [Frame.whole, Record.frame]
    omega
  have hslice : slice (pre ++ r.frame.whole ++ s) (pre.length + 5) r.payload.length =
      some r.payload := by
    have hmid := slice_mid (pre ++ r.frame.header) r.payload s
    rw [List.length_append, show r.frame.header.length = 5 by simp [Record.frame]] at hmid
    rw [← hmid]
    simp [Frame.whole, Record.frame]
  have hread : ∀ j, (pre ++ (r.frame.whole ++ s))[pre.length + j]? =
      (r.type :: UInt8.ofNat (r.ver.toNat / 256) :: UInt8.ofNat r.ver.toNat ::
        UInt8.ofNat (r.payload.length / 256) :: UInt8.ofNat r.payload.length ::
        (r.payload ++ s))[j]? := by
    intro j
    rw [getElem?_mid, Record.whole_eq]
    rfl
  have hfirst := hread 0
  rw [Nat.add_zero] at hfirst
  conv => lhs; unfold parseRecordsLoop
  rw [if_pos (by simp [Frame.whole, Record.frame]; omega), hfirst, hread 1, hread 2, hread 3,
    hread 4]
  simp only [List.getElem?_cons_zero, List.getElem?_cons_succ, Option.bind_eq_bind,
    Option.bind_some, hlen, hver]
  rw [if_neg (by simp [Frame.whole, Record.frame]; omega), ← List.append_assoc, hslice, hwhole]
  rfl

/-- `ParseRecords` returns the records that a stream splits into. -/
theorem parseRecordsLoop_splits {t : List UInt8} {rs : List Record}
    (h : recordFraming.Splits t (rs.map Record.frame)) (hrs : ∀ r ∈ rs, r.payload.length < 2 ^ 16)
    (pre : List UInt8) {fuel : Nat} (hfuel : t.length < fuel) (recs : List Record) :
    parseRecordsLoop (pre ++ t) fuel pre.length recs = some (recs ++ rs) := by
  induction rs generalizing t pre fuel recs with
  | nil =>
    obtain ⟨fuel, rfl⟩ := Nat.exists_eq_succ_of_ne_zero (show fuel ≠ 0 by omega)
    rw [parseRecordsLoop_stops h.nil_inv, List.append_nil]
  | cons r rs ih =>
    obtain ⟨fuel, rfl⟩ := Nat.exists_eq_succ_of_ne_zero (show fuel ≠ 0 by omega)
    obtain ⟨s, rfl, hfits, hrest⟩ := h.cons_inv
    have hpos : 5 ≤ r.frame.whole.length := by
      simp [Frame.whole, Record.frame]
      omega
    rw [List.length_append] at hfuel
    rw [parseRecordsLoop_frame (hrs r (List.mem_cons_self ..)),
      ih hrest (fun q hq => hrs q (List.mem_cons_of_mem _ hq)) _ (by omega), List.append_assoc]
    rfl

theorem parseRecords_splits {s : List UInt8} {rs : List Record}
    (h : recordFraming.Splits s (rs.map Record.frame))
    (hrs : ∀ r ∈ rs, r.payload.length < 2 ^ 16) : parseRecords s = some rs :=
  parseRecordsLoop_splits h hrs [] (Nat.lt_succ_self _) []

theorem findInRecord_stops {s : List UInt8} (hs : messageFraming.Partial s) (wantType : UInt8)
    (pre : List UInt8) (fuel : Nat) :
    findInRecord wantType (pre ++ s) (fuel + 1) pre.length = some none := by
  unfold findInRecord
  split
  · next hle =>
    rw [List.length_append, Nat.add_le_add_iff_left] at hle
    match s, hle, hs with
    | a :: b :: c :: d :: rest, hle, hs =>
      have hlt : rest.length + 4 < 4 + beNat [b, c, d] := hs (by simp [messageFraming])
      have hcut : pre.length + 4 + beNat [b, c, d] > (pre ++ a :: b :: c :: d :: rest).length := by
        simp only [List.length_append, List.length_cons]
        omega
      simp only [getElem?_mid, getElem?_mid_zero, List.getElem?_cons_zero,
        List.getElem?_cons_succ, Option.bind_eq_bind, Option.bind_some]
      rw [if_pos hcut]
  · rfl

theorem findInRecord_frame {f : Frame UInt8} (hf : messageFraming.Fits f) (wantType : UInt8)
    (pre s : List UInt8) (fuel : Nat) :
    findInRecord wantType (pre ++ (f.whole ++ s)) (fuel + 1) pre.length =
      if f.header.head? = some wantType then some (some f.body)
      else findInRecord wantType (pre ++ f.whole ++ s) fuel (pre ++ f.whole).length := by
  obtain ⟨header, body⟩ := f
  match header, hf with
  | [a, b, c, d], hf =>
    have hlen : body.length = beNat [b, c, d] := hf.body
    have hslice : slice (pre ++ (a :: b :: c :: d :: body ++ s)) (pre.length + 4) body.length =
        some body := by
      have hmid := slice_mid (pre ++ [a, b, c, d]) body s
      rw [List.length_append, List.append_assoc] at hmid
      exact hmid
    have hwhole : (Frame.mk [a, b, c, d] body).whole = a :: b :: c :: d :: body := rfl
    conv => lhs; unfold findInRecord
    rw [hwhole, if_pos (by simp only [List.length_append, List.length_cons]; omega)]
    simp only [List.cons_append, getElem?_mid, getElem?_mid_zero, List.getElem?_cons_zero,
      List.getElem?_cons_succ, Option.bind_eq_bind, Option.bind_some, ← hlen]
    rw [if_neg (by simp only [List.length_append, List.length_cons]; omega)]
    rw [List.head?_cons]
    by_cases htype : a = wantType
    · rw [if_pos htype, if_pos (congrArg some htype)]
      simp only [List.cons_append] at hslice
      rw [hslice, Option.bind_some]
    · rw [if_neg htype, if_neg fun hhead => htype (Option.some.inj hhead)]
      have hend : (pre ++ a :: b :: c :: d :: body).length = pre.length + 4 + body.length := by
        simp only [List.length_append, List.length_cons]
        omega
      rw [hend, List.append_assoc]
      rfl

/-- The first message of a record is found if it is whole and of the type. -/
theorem findInRecord_first (wantType : UInt8) {body : List UInt8} (hbody : body.length < 2 ^ 24)
    (rest : List UInt8) (fuel : Nat) :
    findInRecord wantType ((messageFrame wantType body).whole ++ rest) (fuel + 1) 0 =
      some (some body) := by
  have hframe := findInRecord_frame (messageFrame_fits wantType hbody) wantType [] rest fuel
  exact hframe.trans (if_pos rfl)

end NetDebugger.Tls
