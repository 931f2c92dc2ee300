import NetDebugger.Tls.RoundTrip

/-! How the handshake of a capture is cut into records.  `FindHandshake` starts again at each record,
so it sees the messages that are whole in one record: these decide what is decrypted. -/

namespace NetDebugger.Tls

open Lib Framing

/-! ### Messages -/

/-- The messages of a handshake record that a scan of it comes to. -/
def Record.messages (r : Record) : List (Frame UInt8) :=
  if r.type = 22 then messageFraming.frames r.payload else []

/-- The body of the first message of the type. -/
def ofType (type : UInt8) (fs : List (Frame UInt8)) : Option (List UInt8) :=
  (fs.find? fun f => f.header.head? = some type).map Frame.body

/-- The first message of the type that is found in one record. -/
def hello (type : UInt8) (recs : List Record) : Option (List UInt8) :=
  ofType type (recs.flatMap Record.messages)

theorem ofType_append (type : UInt8) (fs gs : List (Frame UInt8)) :
    ofType type (fs ++ gs) = (ofType type fs).or (ofType type gs) := by
  rw [ofType, List.find?_append, Option.map_or]
  rfl

theorem findInRecord_splits {s : List UInt8} {fs : List (Frame UInt8)}
    (h : messageFraming.Splits s fs) (wantType : UInt8) (pre : List UInt8) {fuel : Nat}
    (hfuel : s.length < fuel) :
    findInRecord wantType (pre ++ s) fuel pre.length = some (ofType wantType fs) := by
  induction h generalizing pre fuel with
  | done hpartial =>
    obtain ⟨fuel, rfl⟩ := Nat.exists_eq_succ_of_ne_zero (show fuel ≠ 0 by omega)
    exact findInRecord_stops hpartial wantType pre fuel
  | @frame f s fs hf _ ih =>
    obtain ⟨fuel, rfl⟩ := Nat.exists_eq_succ_of_ne_zero (show fuel ≠ 0 by omega)
    have hpos : 4 ≤ f.whole.length := by
      rw [hf.whole_length]
      exact Nat.le_add_right 4 _
    rw [List.length_append] at hfuel
    rw [findInRecord_frame hf]
    split
    · next htype => simp [ofType, htype]
    · next htype =>
      rw [ih _ (by omega)]
      simp [ofType, htype]

theorem findInRecord_eq (wantType : UInt8) (p : List UInt8) :
    findInRecord wantType p (p.length + 1) 0 =
      some (ofType wantType (messageFraming.frames p)) :=
  findInRecord_splits (splits_frames p) wantType [] (Nat.lt_succ_self _)

/-- `FindHandshake` finds the first message of the type that is whole in a record. -/
theorem findHandshake_eq (wantType : UInt8) (recs : List Record) :
    findHandshake wantType recs = some (hello wantType recs) := by
  induction recs with
  | nil => rfl
  | cons r recs ih =>
    rw [findHandshake, hello, List.flatMap_cons, ofType_append, Record.messages]
    by_cases hr : r.type = 22
    · rw [if_neg (not_not.mpr hr), if_pos hr, findInRecord_eq]
      cases ofType wantType (messageFraming.frames r.payload) with
      | none => exact ih
      | some body => rfl
    · rw [if_pos hr, if_neg hr]
      exact ih

/-- The stream of the records. -/
def streamOf (recs : List Record) : List UInt8 := join (recs.map Record.frame)

/-! ### What the hellos say -/

/-- What a scan takes from the hellos. -/
structure Reading where
  clientRandom : List UInt8
  serverRandom : List UInt8
  cipherSuite : UInt16
deriving DecidableEq

def readClient (ch : List UInt8) : Option (List UInt8) :=
  if ch.length < 34 then none else some ((ch.drop 2).take 32)

def readServer (sh : List UInt8) : Option (List UInt8 × UInt16) :=
  let off := 2 + 32 + 1 + (sh.getD (2 + 32) 0).toNat
  if sh.length < 35 ∨ off + 2 > sh.length then none
  else some ((sh.drop 2).take 32, UInt16.ofNat (beNat [sh.getD off 0, sh.getD (off + 1) 0]))

/-- There is a reading if both hellos are found and long enough. -/
def reading (outRecs inRecs : List Record) : Option Reading :=
  ((hello 1 outRecs).bind readClient).bind fun clientRandom =>
    ((hello 2 inRecs).bind readServer).map fun server => ⟨clientRandom, server.1, server.2⟩

/-- The suites that are decrypted. -/
def gcmSuite (cs : UInt16) : Option SuiteInfo :=
  (lookupSuite cs).filter fun si => !si.tls13 && si.gcm

section

variable (A : Gcm) (H : Hmac)

/-- What the keys of a reading decrypt. -/
def Reading.plaintexts (a : Reading) (master : List UInt8) (si : SuiteInfo)
    (outRecs inRecs : List Record) : Option (List UInt8 × List UInt8) :=
  let k := rfcKeys H master a.clientRandom a.serverRandom si
  (decryptDir A outRecs k.cKey k.cIV).bind fun outPlain =>
    (decryptDir A inRecs k.sKey k.sIV).map fun inPlain => (outPlain, inPlain)

/-- The result, but for the notes. -/
def TlsDecryptResult.seen (r : TlsDecryptResult) : Bool × UInt16 × List UInt8 × List UInt8 :=
  (r.ok, r.cipherSuite, r.outPlain, r.inPlain)

/-- What `TlsDecryptFlow` makes of a reading. -/
def outcome (keylog : TlsKeyLog) (a : Option Reading) (outRecs inRecs : List Record) :
    Option (Bool × UInt16 × List UInt8 × List UInt8) :=
  match a with
  | none => some (false, 0, [], [])
  | some a =>
    match gcmSuite a.cipherSuite with
    | none => some (false, a.cipherSuite, [], [])
    | some si =>
      let master := keylog.masterSecret a.clientRandom
      if master.length ≠ 48 then some (false, a.cipherSuite, [], [])
      else (a.plaintexts A H master si outRecs inRecs).map fun plain => (true, a.cipherSuite, plain)

theorem getElem?_eq_getD {s : List UInt8} {i : Nat} (h : i < s.length) :
    s[i]? = some (s.getD i 0) := by
  rw [List.getD, List.getElem?_eq_getElem h, Option.getD_some]

/-- From the suite on. -/
theorem outcome_some (keylog : TlsKeyLog) (cr sr : List UInt8) (cs : UInt16)
    (outRecs inRecs : List Record) : outcome A H keylog (some ⟨cr, sr, cs⟩) outRecs inRecs =
      Option.map TlsDecryptResult.seen (match lookupSuite cs with
      | none => some (.failed (text "unsupported cipher suite 0x" ++ hex4 cs.toNat) cs false)
      | some si =>
        if si.tls13 then
          some (.failed (text "TLS 1.3 capture (decryptor handles TLS 1.2 GCM so far)") cs true)
        else if !si.gcm then some (.failed (text "non-GCM cipher not supported yet") cs false)
        else if (keylog.masterSecret cr).length ≠ 48 then
          some (.failed (text "no master secret for this client_random in the keylog") cs false)
        else
          (deriveKeyBlock H (keylog.masterSecret cr) cr sr si).bind fun k =>
            (decryptDir A outRecs k.cKey k.cIV).bind fun outPlain =>
              (decryptDir A inRecs k.sKey k.sIV).bind fun inPlain =>
                some ⟨true, [], cs, false, outPlain, inPlain⟩) := by
  rw [outcome]
  cases hlookup : lookupSuite cs with
  | none =>
    have hsuite : gcmSuite cs = none := by simp [gcmSuite, hlookup]
    simp only [hsuite]
    rfl
  | some si =>
  by_cases htls13 : si.tls13 = true
  · have hsuite : gcmSuite cs = none := by simp [gcmSuite, hlookup, htls13]
    simp only [hsuite, htls13, if_true]
    rfl
  by_cases hgcm : si.gcm = true
  · have hsuite : gcmSuite cs = some si := by simp [gcmSuite, hlookup, htls13, hgcm]
    simp only [hsuite, htls13, hgcm, Bool.not_true, Bool.false_eq_true, if_false]
    split
    · rfl
    · rw [deriveKeyBlock_eq, Option.bind_some, Reading.plaintexts]
      generalize rfcKeys H (keylog.masterSecret cr) cr sr si = k
      cases decryptDir A outRecs k.cKey k.cIV with
      | none => rfl
      | some outPlain =>
      cases decryptDir A inRecs k.sKey k.sIV with
      | none => simp
      | some inPlain => simp [TlsDecryptResult.seen]
  · have hsuite : gcmSuite cs = none := by simp [gcmSuite, hlookup, hgcm]
    simp only [hsuite, htls13, hgcm]
    rfl

/-- The result depends on the handshake by the reading alone. -/
theorem tlsDecryptFlow_seen {out inn : List UInt8} {outRecs inRecs : List Record}
    (hout : parseRecords out = some outRecs) (hin : parseRecords inn = some inRecs)
    (keylog : TlsKeyLog) : (tlsDecryptFlow A H out inn keylog).map TlsDecryptResult.seen =
      outcome A H keylog (reading outRecs inRecs) outRecs inRecs := by
  unfold tlsDecryptFlow
  rw [hout, hin]
  dsimp only [Option.bind_eq_bind, Option.bind_some]
  rw [findHandshake_eq, findHandshake_eq]
  dsimp only [Option.bind_some]
  cases hch : hello 1 outRecs with
  | none =>
    have hnone : reading outRecs inRecs = none := by simp [reading, hch]
    rw [hnone]
    rfl
  | some ch =>
  by_cases hclient : ch.length < 34
  · have hnone : reading outRecs inRecs = none := by simp [reading, hch, readClient, hclient]
    rw [hnone]
    simp only [if_pos hclient]
    rfl
  simp only [if_neg hclient]
  cases hsh : hello 2 inRecs with
  | none =>
    have hnone : reading outRecs inRecs = none := by simp [reading, hsh]
    rw [hnone]
    rfl
  | some sh =>
  by_cases hserver : sh.length < 35
  · have hnone : reading outRecs inRecs = none := by simp [reading, hsh, readServer, hserver]
    rw [hnone]
    simp only [if_pos hserver]
    rfl
  simp only [if_neg hserver]
  rw [slice_of_le (by omega), slice_of_le (by omega), getElem?_eq_getD (by omega)]
  simp only [Option.bind_some]
  by_cases hoff : 2 + 32 + 1 + (sh.getD (2 + 32) 0).toNat + 2 > sh.length
  · have hnone : reading outRecs inRecs = none := by
      rw [reading, hsh, Option.bind_some, readServer, if_pos (Or.inr hoff)]
      simp
    rw [hnone, if_pos hoff]
    rfl
  rw [if_neg hoff, getElem?_eq_getD (by omega), getElem?_eq_getD (by omega)]
  simp only [Option.bind_some]
  have hreading : reading outRecs inRecs = some ⟨(ch.drop 2).take 32, (sh.drop 2).take 32,
      UInt16.ofNat (beNat [sh.getD (2 + 32 + 1 + (sh.getD (2 + 32) 0).toNat) 0,
        sh.getD (2 + 32 + 1 + (sh.getD (2 + 32) 0).toNat + 1) 0])⟩ := by
    rw [reading, hch, hsh, Option.bind_some, Option.bind_some, readClient, if_neg hclient,
      Option.bind_some, readServer, if_neg (not_or.mpr ⟨hserver, hoff⟩)]
    rfl
  rw [hreading]
  exact (outcome_some A H keylog _ _ _ outRecs inRecs).symm

end

end NetDebugger.Tls
