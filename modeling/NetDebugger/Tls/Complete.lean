import NetDebugger.Tls.Fragments
import NetDebugger.Tls.Framing

/-! When the result of `TlsDecryptFlow` is all of the application data. The decryptor returns for
every capture, and it reports success wherever it has keys, so that a success is a complete
decryption exactly when no record fails. -/

namespace NetDebugger.Tls

open Lib Framing

/-! ### The decryptor returns -/

theorem parseRecords_total (s : List UInt8) : ∃ recs, parseRecords s = some recs := by
  obtain ⟨recs, -, hrecs, -⟩ := parseRecords_split s
  exact ⟨recs, hrecs⟩

section

variable (A : Gcm) (H : Hmac)

theorem gcmDecryptRecord_total (key : List UInt8) {iv4 : List UInt8} (hiv : iv4.length = 4)
    (seq : UInt64) (r : Record) : ∃ o, gcmDecryptRecord A key iv4 seq r = some o := by
  rw [gcmDecryptRecord]
  split
  · exact ⟨_, rfl⟩
  · have hnonce := @slice_of_le _ r.payload 0 8 (by omega)
    have hct := @slice_of_le _ r.payload 8 (r.payload.length - 8 - 16) (by omega)
    have htag := @slice_of_le _ r.payload (r.payload.length - 16) 16 (by omega)
    have hsalt := @slice_of_le _ iv4 0 4 (by omega)
    simp only [hnonce, hct, htag, hsalt, Option.bind_eq_bind, Option.bind_some]
    exact ⟨_, rfl⟩

theorem decryptLoop_total (key : List UInt8) {iv4 : List UInt8} (hiv : iv4.length = 4)
    (recs : List Record) (on : Bool) (seq : UInt64) (out : List UInt8) :
    ∃ plain, decryptLoop A key iv4 recs on seq out = some plain := by
  induction recs generalizing on seq out with
  | nil => exact ⟨out, by cases on <;> rfl⟩
  | cons r recs ih =>
    cases on with
    | false => exact ih _ _ _
    | true =>
      obtain ⟨o, ho⟩ := gcmDecryptRecord_total A key hiv seq r
      rw [decryptLoop, ho, Option.bind_eq_bind, Option.bind_some]
      cases o with
      | none => exact ⟨out, rfl⟩
      | some pt => exact ih _ _ _

theorem decryptDir_total (key : List UInt8) {iv4 : List UInt8} (hiv : iv4.length = 4)
    (recs : List Record) : ∃ plain, decryptDir A recs key iv4 = some plain := by
  rw [decryptDir]
  split
  · exact ⟨[], rfl⟩
  · exact decryptLoop_total A key hiv recs _ _ _

/-- The keys of a session, where the capture shows a handshake of a suite that is decrypted and
the keylog has its secret. -/
def sessionKeys (keylog : TlsKeyLog) (outRecs inRecs : List Record) : Option DirKeys := do
  let a ← reading outRecs inRecs
  let si ← gcmSuite a.cipherSuite
  let master := keylog.masterSecret a.clientRandom
  if master.length ≠ 48 then none
  else some (rfcKeys H master a.clientRandom a.serverRandom si)

/-- Without keys the result is a failure, with keys it is what each direction decrypts to. -/
theorem tlsDecryptFlow_keys {out inn : List UInt8} {outRecs inRecs : List Record}
    (hout : parseRecords out = some outRecs) (hin : parseRecords inn = some inRecs)
    (keylog : TlsKeyLog) : ∃ r, tlsDecryptFlow A H out inn keylog = some r ∧
      match sessionKeys H keylog outRecs inRecs with
      | none => r.ok = false ∧ r.outPlain = [] ∧ r.inPlain = []
      | some k => r.ok = true ∧ decryptDir A outRecs k.cKey k.cIV = some r.outPlain ∧
        decryptDir A inRecs k.sKey k.sIV = some r.inPlain := by
  have hseen := tlsDecryptFlow_seen A H hout hin keylog
  unfold sessionKeys
  cases hreading : reading outRecs inRecs with
  | none =>
    rw [hreading] at hseen
    obtain ⟨r, hr, hfields⟩ := Option.map_eq_some_iff.mp hseen
    simp only [TlsDecryptResult.seen, Prod.mk.injEq] at hfields
    exact ⟨r, hr, hfields.1, hfields.2.2⟩
  | some a =>
    rw [hreading, outcome] at hseen
    cases hsuite : gcmSuite a.cipherSuite with
    | none =>
      simp only [hsuite] at hseen
      obtain ⟨r, hr, hfields⟩ := Option.map_eq_some_iff.mp hseen
      simp only [TlsDecryptResult.seen, Prod.mk.injEq] at hfields
      refine ⟨r, hr, ?_⟩
      simp only [Option.bind_eq_bind, Option.bind_some, hsuite, Option.bind_none]
      exact ⟨hfields.1, hfields.2.2⟩
    | some si =>
      simp only [hsuite] at hseen
      by_cases hmaster : (keylog.masterSecret a.clientRandom).length ≠ 48
      · rw [if_pos hmaster] at hseen
        obtain ⟨r, hr, hfields⟩ := Option.map_eq_some_iff.mp hseen
        simp only [TlsDecryptResult.seen, Prod.mk.injEq] at hfields
        refine ⟨r, hr, ?_⟩
        simp only [Option.bind_eq_bind, Option.bind_some, hsuite, if_pos hmaster]
        exact ⟨hfields.1, hfields.2.2⟩
      · rw [if_neg hmaster] at hseen
        obtain ⟨-, -, hc, hs⟩ := rfcKeys_length H (keylog.masterSecret a.clientRandom)
          a.clientRandom a.serverRandom si
        simp only [Reading.plaintexts] at hseen
        generalize hk : rfcKeys H (keylog.masterSecret a.clientRandom) a.clientRandom
          a.serverRandom si = k at hseen hc hs
        obtain ⟨outPlain, hoplain⟩ := decryptDir_total A k.cKey hc outRecs
        obtain ⟨inPlain, hiplain⟩ := decryptDir_total A k.sKey hs inRecs
        simp only [hoplain, hiplain, Option.bind_some, Option.map_some] at hseen
        obtain ⟨r, hr, hfields⟩ := Option.map_eq_some_iff.mp hseen
        simp only [TlsDecryptResult.seen, Prod.mk.injEq] at hfields
        obtain ⟨hok, -, hplain, hplain'⟩ := hfields
        refine ⟨r, hr, ?_⟩
        simp only [Option.bind_eq_bind, Option.bind_some, hsuite, if_neg hmaster, hk]
        exact ⟨hok, by rw [hoplain, hplain], by rw [hiplain, hplain']⟩

theorem tlsDecryptFlow_total (out inn : List UInt8) (keylog : TlsKeyLog) :
    ∃ r, tlsDecryptFlow A H out inn keylog = some r := by
  obtain ⟨outRecs, hout⟩ := parseRecords_total out
  obtain ⟨inRecs, hin⟩ := parseRecords_total inn
  obtain ⟨r, hr, -⟩ := tlsDecryptFlow_keys A H hout hin keylog
  exact ⟨r, hr⟩

/-! ### Complete decryption -/

/-- The records behind the first ChangeCipherSpec. -/
def protectedRecords (recs : List Record) : List Record :=
  (recs.dropWhile fun r => r.type ≠ 20).drop 1

/-- The plaintext of a record that is authentic under a key that can be set. -/
def opens (key iv4 : List UInt8) (seq : UInt64) (r : Record) : Option (List UInt8) :=
  if A.setkey key then (gcmDecryptRecord A key iv4 seq r).join else none

/-- The records open one after the other, with sequence numbers that count up from `seq`. -/
inductive Opens (key iv4 : List UInt8) : UInt64 → List Record → List (List UInt8) → Prop
  | nil (seq : UInt64) : Opens key iv4 seq [] []
  | cons {seq : UInt64} {r : Record} {recs : List Record} {pt : List UInt8}
      {pts : List (List UInt8)} : opens A key iv4 seq r = some pt →
      Opens key iv4 (seq + 1) recs pts → Opens key iv4 seq (r :: recs) (pt :: pts)

/-- The application data among the plaintexts of the records. -/
def dataOf (recs : List Record) (pts : List (List UInt8)) : List UInt8 :=
  (recs.zip pts).flatMap fun p => if p.1.type = 23 then p.2 else []

/-- The direction is decrypted to its end. -/
def CompleteDir (key iv4 : List UInt8) (recs : List Record) (plain : List UInt8) : Prop :=
  ∃ pts, Opens A key iv4 0 (protectedRecords recs) pts ∧
    plain = dataOf (protectedRecords recs) pts

/-- Every record behind the ChangeCipherSpec is long enough and authentic in its place. -/
def AllOpen (key iv4 : List UInt8) (recs : List Record) : Prop :=
  ∀ i r, (protectedRecords recs)[i]? = some r → (opens A key iv4 (UInt64.ofNat i) r).isSome

/-- Success is reported for complete decryptions only; a record that does not open is reported. -/
structure Honest (out inn : List UInt8) (keylog : TlsKeyLog) : Prop where
  complete : ∀ r outRecs inRecs, tlsDecryptFlow A H out inn keylog = some r →
    parseRecords out = some outRecs → parseRecords inn = some inRecs → r.ok = true →
    ∃ k, sessionKeys H keylog outRecs inRecs = some k ∧
      CompleteDir A k.cKey k.cIV outRecs r.outPlain ∧ CompleteDir A k.sKey k.sIV inRecs r.inPlain
  reported : ∀ r outRecs inRecs k, tlsDecryptFlow A H out inn keylog = some r →
    parseRecords out = some outRecs → parseRecords inn = some inRecs →
    sessionKeys H keylog outRecs inRecs = some k →
    ¬(AllOpen A k.cKey k.cIV outRecs ∧ AllOpen A k.sKey k.sIV inRecs) →
    r.ok = false ∨ r.note ≠ []

variable {A} {key iv4 : List UInt8}

theorem Opens.isSome {seq : UInt64} {recs : List Record} {pts : List (List UInt8)}
    (h : Opens A key iv4 seq recs pts) {i : Nat} {r : Record} (hr : recs[i]? = some r) :
    (opens A key iv4 (seq + UInt64.ofNat i) r).isSome := by
  induction h generalizing i with
  | nil => cases hr
  | @cons seq r' recs pt pts hpt _ ih =>
    cases i with
    | zero =>
      obtain rfl := Option.some.inj hr
      rw [show seq + UInt64.ofNat 0 = seq from UInt64.add_zero seq, hpt]
      rfl
    | succ i =>
      have hseq : seq + UInt64.ofNat (i + 1) = seq + 1 + UInt64.ofNat i := by
        rw [UInt64.ofNat_add, UInt64.add_comm (UInt64.ofNat i), UInt64.add_assoc]
        rfl
      rw [hseq]
      exact ih hr

theorem opens_of_isSome {seq : UInt64} {recs : List Record}
    (h : ∀ i r, recs[i]? = some r → (opens A key iv4 (seq + UInt64.ofNat i) r).isSome) :
    ∃ pts, Opens A key iv4 seq recs pts := by
  induction recs generalizing seq with
  | nil => exact ⟨[], .nil seq⟩
  | cons r recs ih =>
    obtain ⟨pt, hpt⟩ := Option.isSome_iff_exists.mp (h 0 r rfl)
    rw [show seq + UInt64.ofNat 0 = seq from UInt64.add_zero seq] at hpt
    obtain ⟨pts, hpts⟩ := @ih (seq + 1) (by
      intro i r' hr'
      have hnext := h (i + 1) r' hr'
      rw [UInt64.ofNat_add, UInt64.add_comm (UInt64.ofNat i), ← UInt64.add_assoc] at hnext
      exact hnext)
    exact ⟨pt :: pts, .cons hpt hpts⟩

theorem allOpen_iff (recs : List Record) :
    AllOpen A key iv4 recs ↔ ∃ pts, Opens A key iv4 0 (protectedRecords recs) pts := by
  have hzero : ∀ i, (0 : UInt64) + UInt64.ofNat i = UInt64.ofNat i := fun i => UInt64.zero_add _
  constructor
  · intro h
    apply opens_of_isSome
    intro i r hr
    rw [hzero]
    exact h i r hr
  · rintro ⟨pts, hpts⟩ i r hr
    have hopen := hpts.isSome hr
    rw [hzero] at hopen
    exact hopen

/-- Up to the ChangeCipherSpec nothing is decrypted. -/
theorem decryptLoop_protected (recs : List Record) (out : List UInt8) :
    decryptLoop A key iv4 recs false 0 out =
      decryptLoop A key iv4 (protectedRecords recs) true 0 out := by
  induction recs with
  | nil => rfl
  | cons r recs ih =>
    rw [decryptLoop, protectedRecords, List.dropWhile_cons]
    by_cases hr : r.type = 20
    · simp [hr]
    · simp only [hr, decide_false, ne_eq, not_false_eq_true, decide_true, if_true]
      exact ih

/-- Records that open are all decrypted. -/
theorem Opens.loop {seq : UInt64} {recs : List Record} {pts : List (List UInt8)}
    (h : Opens A key iv4 seq recs pts) (out : List UInt8) :
    decryptLoop A key iv4 recs true seq out = some (out ++ dataOf recs pts) := by
  induction h generalizing out with
  | nil => simp [decryptLoop, dataOf]
  | @cons seq r recs pt pts hpt _ ih =>
    have hdec : gcmDecryptRecord A key iv4 seq r = some (some pt) := by
      rw [opens] at hpt
      split at hpt
      · exact Option.join_eq_some_iff.mp hpt
      · cases hpt
    rw [decryptLoop, hdec, Option.bind_eq_bind, Option.bind_some]
    show decryptLoop A key iv4 recs true (seq + 1) _ = _
    rw [ih]
    by_cases hr : r.type = 23 <;> simp [dataOf, hr]

theorem Opens.setkey {seq : UInt64} {recs : List Record} {pts : List (List UInt8)}
    (h : Opens A key iv4 seq recs pts) : recs = [] ∨ A.setkey key = true := by
  cases h with
  | nil => exact .inl rfl
  | cons hpt _ =>
    rw [opens] at hpt
    split at hpt
    · next hset => exact .inr hset
    · cases hpt

/-- What a direction decrypts to when every record opens. -/
theorem Opens.dir {recs : List Record} {pts : List (List UInt8)}
    (h : Opens A key iv4 0 (protectedRecords recs) pts) :
    decryptDir A recs key iv4 = some (dataOf (protectedRecords recs) pts) := by
  have hloop := h.loop []
  rw [List.nil_append, ← decryptLoop_protected] at hloop
  rw [decryptDir]
  cases hset : A.setkey key with
  | true => exact hloop
  | false =>
    rcases h.setkey with hnil | hset'
    · rw [hnil] at h ⊢
      cases h
      rfl
    · rw [hset] at hset'
      cases hset'

variable (A)

/-- Success means a complete decryption exactly where there are no keys, so that there is no
success, or the keys can be set and every record behind the ChangeCipherSpec opens. -/
theorem honest_iff (out inn : List UInt8) (keylog : TlsKeyLog) :
    Honest A H out inn keylog ↔
      ∀ outRecs inRecs k, parseRecords out = some outRecs → parseRecords inn = some inRecs →
        sessionKeys H keylog outRecs inRecs = some k →
        AllOpen A k.cKey k.cIV outRecs ∧ AllOpen A k.sKey k.sIV inRecs := by
  constructor
  · intro h outRecs inRecs k hout hin hk
    obtain ⟨r, hr, hdir⟩ := tlsDecryptFlow_keys A H hout hin keylog
    simp only [hk] at hdir
    obtain ⟨k', hk', hcout, hcin⟩ := h.complete r outRecs inRecs hr hout hin hdir.1
    obtain rfl := Option.some.inj (hk.symm.trans hk')
    obtain ⟨pts, hpts, -⟩ := hcout
    obtain ⟨pts', hpts', -⟩ := hcin
    exact ⟨(allOpen_iff outRecs).mpr ⟨pts, hpts⟩, (allOpen_iff inRecs).mpr ⟨pts', hpts'⟩⟩
  · intro h
    constructor
    case complete =>
      intro r outRecs inRecs hr hout hin hok
      obtain ⟨r', hr', hdir⟩ := tlsDecryptFlow_keys A H hout hin keylog
      obtain rfl := Option.some.inj (hr.symm.trans hr')
      cases hk : sessionKeys H keylog outRecs inRecs with
      | none =>
        simp only [hk] at hdir
        rw [hdir.1] at hok
        cases hok
      | some k =>
        simp only [hk] at hdir
        obtain ⟨hopen, hopen'⟩ := h outRecs inRecs k hout hin hk
        obtain ⟨pts, hpts⟩ := (allOpen_iff outRecs).mp hopen
        obtain ⟨pts', hpts'⟩ := (allOpen_iff inRecs).mp hopen'
        have hplain := hpts.dir.symm.trans hdir.2.1
        have hplain' := hpts'.dir.symm.trans hdir.2.2
        exact ⟨k, rfl, ⟨pts, hpts, (Option.some.inj hplain).symm⟩,
          ⟨pts', hpts', (Option.some.inj hplain').symm⟩⟩
    case reported =>
      intro r outRecs inRecs k _ hout hin hk hnot
      exact absurd (h outRecs inRecs k hout hin hk) hnot

end

/-- The client's records, of which the capture lost the first one of application data. -/
def gapRecords : List Record := ((parseRecords clientStream).getD []).eraseIdx 4

/-- The record behind the gap does not open, and the result is a success without the data. -/
theorem gap_succeeds : ¬∀ out inn keylog, Honest sumGcm cutHmac out inn keylog := by
  intro h
  have hout : parseRecords (streamOf gapRecords) = some gapRecords := by decide +kernel
  obtain ⟨inRecs, hin⟩ := parseRecords_total serverStream
  have hflow : tlsDecryptFlow sumGcm cutHmac (streamOf gapRecords) serverStream someKeylog =
      some ⟨true, [], 0xC02F, false, [], text "200"⟩ := by decide +kernel
  have hkeys : sessionKeys cutHmac someKeylog gapRecords inRecs = some someKeys := by
    have hread : (parseRecords serverStream).bind (sessionKeys cutHmac someKeylog gapRecords) =
        some someKeys := by decide +kernel
    rw [hin, Option.bind_some] at hread
    exact hread
  obtain ⟨k, hk, ⟨pts, hpts, -⟩, -⟩ := (h (streamOf gapRecords) serverStream someKeylog).complete
    _ gapRecords inRecs hflow hout hin rfl
  obtain rfl := Option.some.inj (hkeys.symm.trans hk)
  have hlast : ((protectedRecords gapRecords)[1]?).any (fun r =>
      opens sumGcm someKeys.cKey someKeys.cIV (0 + UInt64.ofNat 1) r = none) = true := by
    decide +kernel
  obtain ⟨r, hr, hnone⟩ := (Option.any_eq_true ..).mp hlast
  rw [decide_eq_true_eq] at hnone
  have hopen := hpts.isSome hr
  rw [hnone] at hopen
  cases hopen

end NetDebugger.Tls
