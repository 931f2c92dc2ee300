import NetDebugger.Tls.Complete

/-! Which hello is looked for in which stream.  `TlsDecryptFlow` wants the ClientHello in its first
stream and the ServerHello in its second; with the streams exchanged it says the same only where
neither order gets past the hellos. -/

namespace NetDebugger.Tls

open Lib

/-- `FindHandshake` finds a message of the type in the stream, and it is not too short. -/
def holdsHello (type : UInt8) (least : Nat) (s : List UInt8) : Bool :=
  match (parseRecords s).bind (findHandshake type) with
  | some (some body) => least ≤ body.length
  | _ => false

def HoldsClientHello (s : List UInt8) : Prop := holdsHello 1 34 s = true

def HoldsServerHello (s : List UInt8) : Prop := holdsHello 2 35 s = true

instance (s : List UInt8) : Decidable (HoldsClientHello s) := by
  unfold HoldsClientHello
  infer_instance

instance (s : List UInt8) : Decidable (HoldsServerHello s) := by
  unfold HoldsServerHello
  infer_instance

def TlsDecryptResult.noClientHello : TlsDecryptResult :=
  .failed (text "no ClientHello (client_random) in the outbound stream") 0 false

def TlsDecryptResult.noServerHello : TlsDecryptResult :=
  .failed (text "no ServerHello in the inbound stream") 0 false

/-- The note is not that of a missing hello. -/
def BehindHellos (note : List UInt8) : Prop :=
  note ≠ TlsDecryptResult.noClientHello.note ∧ note ≠ TlsDecryptResult.noServerHello.note

instance (note : List UInt8) : Decidable (BehindHellos note) :=
  inferInstanceAs (Decidable (_ ∧ _))

/-- How far the scan for the hellos gets. -/
structure Scanned (out inn : List UInt8) (r : TlsDecryptResult) : Prop where
  client : ¬HoldsClientHello out → r = .noClientHello
  server : HoldsClientHello out → ¬HoldsServerHello inn → r = .noServerHello
  beyond : HoldsClientHello out → HoldsServerHello inn → BehindHellos r.note

theorem holdsHello_iff {type : UInt8} {least : Nat} {s : List UInt8} {recs : List Record}
    (hrecs : parseRecords s = some recs) : holdsHello type least s = true ↔
      ∃ body, hello type recs = some body ∧ least ≤ body.length := by
  rw [holdsHello, hrecs, Option.bind_some, findHandshake_eq]
  cases hello type recs with
  | none => simp
  | some body => simp

/-! ### The notes behind the hellos -/

theorem behind_unsupported (n : Nat) :
    BehindHellos (text "unsupported cipher suite 0x" ++ hex4 n) := by
  have hhead : (text "unsupported cipher suite 0x" ++ hex4 n).head? = some 0x75 := rfl
  constructor <;> intro h <;> rw [h] at hhead <;> revert hhead <;> decide +kernel

/-- From the suite on. -/
theorem behind_suite (A : Gcm) (H : Hmac) {keylog : TlsKeyLog} {cr sr : List UInt8} {suite : UInt16}
    {outRecs inRecs : List Record} {r : TlsDecryptResult}
    (h : (match lookupSuite suite with
      | none => some (.failed (text "unsupported cipher suite 0x" ++ hex4 suite.toNat) suite false)
      | some si =>
        if si.tls13 then
          some (.failed (text "TLS 1.3 capture (decryptor handles TLS 1.2 GCM so far)") suite true)
        else if !si.gcm then some (.failed (text "non-GCM cipher not supported yet") suite false)
        else if (keylog.masterSecret cr).length ≠ 48 then
          some (.failed (text "no master secret for this client_random in the keylog") suite false)
        else
          (deriveKeyBlock H (keylog.masterSecret cr) cr sr si).bind fun k =>
            (decryptDir A outRecs k.cKey k.cIV).bind fun outPlain =>
              (decryptDir A inRecs k.sKey k.sIV).bind fun inPlain =>
                some ⟨true, [], suite, false, outPlain, inPlain⟩) = some r) : BehindHellos r.note := by
  have htls13 : BehindHellos
      (text "TLS 1.3 capture (decryptor handles TLS 1.2 GCM so far)") := by decide +kernel
  have hgcm : BehindHellos (text "non-GCM cipher not supported yet") := by decide +kernel
  have hmaster : BehindHellos
      (text "no master secret for this client_random in the keylog") := by decide +kernel
  have hok : BehindHellos [] := by decide +kernel
  cases hlookup : lookupSuite suite with
  | none =>
    rw [hlookup] at h
    exact Option.some.inj h ▸ behind_unsupported _
  | some si =>
    simp only [hlookup] at h
    split at h
    · exact Option.some.inj h ▸ htls13
    split at h
    · exact Option.some.inj h ▸ hgcm
    split at h
    · exact Option.some.inj h ▸ hmaster
    · obtain ⟨k, -, h⟩ := Option.bind_eq_some_iff.mp h
      obtain ⟨outPlain, -, h⟩ := Option.bind_eq_some_iff.mp h
      obtain ⟨inPlain, -, h⟩ := Option.bind_eq_some_iff.mp h
      exact Option.some.inj h ▸ hok

/-! ### The scan -/

variable (A : Gcm) (H : Hmac)

theorem tlsDecryptFlow_scanned {out inn : List UInt8} {keylog : TlsKeyLog} {r : TlsDecryptResult}
    (h : tlsDecryptFlow A H out inn keylog = some r) : Scanned out inn r := by
  obtain ⟨outRecs, hout⟩ := parseRecords_total out
  obtain ⟨inRecs, hin⟩ := parseRecords_total inn
  have hclient : HoldsClientHello out ↔ _ := @holdsHello_iff 1 34 out outRecs hout
  have hserver : HoldsServerHello inn ↔ _ := @holdsHello_iff 2 35 inn inRecs hin
  unfold tlsDecryptFlow at h
  rw [hout, hin] at h
  dsimp only [Option.bind_eq_bind, Option.bind_some] at h
  rw [findHandshake_eq, findHandshake_eq] at h
  dsimp only [Option.bind_some] at h
  -- each failure on the way says which hello is missing
  have hno : ¬HoldsClientHello out → r = .noClientHello → Scanned out inn r := fun hc hr =>
    ⟨fun _ => hr, fun hc' => absurd hc' hc, fun hc' => absurd hc' hc⟩
  cases hch : hello 1 outRecs with
  | none =>
    rw [hch] at h hclient
    exact hno (by simp [hclient]) (Option.some.inj h).symm
  | some ch =>
  rw [hch] at h hclient
  dsimp only at h
  by_cases hlen : ch.length < 34
  · rw [if_pos hlen] at h
    exact hno (by simp [hclient, hlen]) (Option.some.inj h).symm
  have hc : HoldsClientHello out := hclient.mpr ⟨ch, rfl, Nat.le_of_not_lt hlen⟩
  have hnone : ¬HoldsServerHello inn → r = .noServerHello → Scanned out inn r := fun hs hr =>
    ⟨fun hc' => absurd hc hc', fun _ _ => hr, fun _ hs' => absurd hs' hs⟩
  rw [if_neg hlen] at h
  cases hsh : hello 2 inRecs with
  | none =>
    rw [hsh] at h hserver
    exact hnone (by simp [hserver]) (Option.some.inj h).symm
  | some sh =>
  rw [hsh] at h hserver
  dsimp only at h
  by_cases hlen' : sh.length < 35
  · rw [if_pos hlen'] at h
    exact hnone (by simp [hserver, hlen']) (Option.some.inj h).symm
  have hs : HoldsServerHello inn := hserver.mpr ⟨sh, rfl, Nat.le_of_not_lt hlen'⟩
  refine ⟨fun hc' => absurd hc hc', fun _ hs' => absurd hs hs', fun _ _ => ?_⟩
  rw [if_neg hlen', slice_of_le (by omega), slice_of_le (by omega), getElem?_eq_getD (by omega)] at h
  simp only [Option.bind_some] at h
  split at h
  · have hmalformed : BehindHellos (text "malformed ServerHello") := by decide +kernel
    exact Option.some.inj h ▸ hmalformed
  · next hoff =>
    rw [getElem?_eq_getD (by omega), getElem?_eq_getD (by omega)] at h
    exact behind_suite A H h

/-- With the streams exchanged the result is the same exactly where neither order has a ClientHello,
or both have one and no ServerHello, if not both streams hold both. -/
theorem tlsDecryptFlow_swap {s t : List UInt8} (keylog : TlsKeyLog)
    (hboth : ¬((HoldsClientHello s ∧ HoldsServerHello s) ∧ HoldsClientHello t ∧ HoldsServerHello t)) :
    tlsDecryptFlow A H s t keylog = tlsDecryptFlow A H t s keylog ↔
      (¬HoldsClientHello s ∧ ¬HoldsClientHello t) ∨
        (HoldsClientHello s ∧ HoldsClientHello t) ∧ ¬HoldsServerHello s ∧ ¬HoldsServerHello t := by
  obtain ⟨r, hr⟩ := tlsDecryptFlow_total A H s t keylog
  obtain ⟨r', hr'⟩ := tlsDecryptFlow_total A H t s keylog
  have hscan := tlsDecryptFlow_scanned A H hr
  have hscan' := tlsDecryptFlow_scanned A H hr'
  have hclient : ¬BehindHellos TlsDecryptResult.noClientHello.note := fun h => h.1 rfl
  have hserver : ¬BehindHellos TlsDecryptResult.noServerHello.note := fun h => h.2 rfl
  have hnotes : TlsDecryptResult.noClientHello ≠ .noServerHello := by decide +kernel
  -- an order that finds its ClientHello does not report that it is missing
  have hfound : ∀ {out inn : List UInt8} {q : TlsDecryptResult}, Scanned out inn q →
      HoldsClientHello out → q ≠ .noClientHello := by
    rintro out inn q hq hout rfl
    by_cases hin : HoldsServerHello inn
    · exact hclient (hq.beyond hout hin)
    · exact hnotes (hq.server hout hin)
  rw [hr, hr', Option.some.injEq]
  by_cases hs : HoldsClientHello s
  · by_cases ht : HoldsClientHello t
    · by_cases hs' : HoldsServerHello s
      · by_cases ht' : HoldsServerHello t
        · exact absurd ⟨⟨hs, hs'⟩, ht, ht'⟩ hboth
        · refine iff_of_false ?_ (by simp [hs, hs'])
          rintro rfl
          exact hserver (hscan.server hs ht' ▸ hscan'.beyond ht hs')
      · by_cases ht' : HoldsServerHello t
        · refine iff_of_false ?_ (by simp [hs, ht'])
          rintro rfl
          exact hserver (hscan'.server ht hs' ▸ hscan.beyond hs ht')
        · rw [hscan.server hs ht', hscan'.server ht hs']
          exact iff_of_true rfl (.inr ⟨⟨hs, ht⟩, hs', ht'⟩)
    · refine iff_of_false ?_ (by simp [hs, ht])
      rw [hscan'.client ht]
      exact hfound hscan hs
  · by_cases ht : HoldsClientHello t
    · refine iff_of_false ?_ (by simp [hs, ht])
      rw [hscan.client hs]
      exact (hfound hscan' ht).symm
    · rw [hscan.client hs, hscan'.client ht]
      exact iff_of_true rfl (.inl ⟨hs, ht⟩)

end NetDebugger.Tls
