import NetDebugger.Tls.Fragments

/-! Two captures whose records cut one handshake differently.  What they are decrypted to depends on the
messages that are whole in a record: on the client random, on the suite, and on the server random where
something is there to be opened. -/

namespace NetDebugger.Tls

open Lib Framing

/-! ### Two captures of one connection -/

/-- The octets that the handshake records carry. -/
def handshake (recs : List Record) : List UInt8 :=
  (recs.filter fun r => r.type = 22).flatMap Record.payload

/-- Two streams of records that carry the same handshake in clear, and the same records from the
ChangeCipherSpec on. -/
structure Refragmented (s s' : List UInt8) (clear clear' later : List Record) : Prop where
  parses : parseRecords s = some (clear ++ later)
  parses' : parseRecords s' = some (clear' ++ later)
  plain : ∀ r ∈ clear, r.type ≠ 20
  plain' : ∀ r ∈ clear', r.type ≠ 20
  ccs : ∀ r ∈ later.head?, r.type = 20
  same : handshake clear = handshake clear'

theorem Refragmented.symm {s s' : List UInt8} {clear clear' later : List Record}
    (h : Refragmented s s' clear clear' later) : Refragmented s' s clear' clear later :=
  ⟨h.parses', h.parses, h.plain', h.plain, h.ccs, h.same.symm⟩

/-- The application data that is there to be opened, as it was encrypted: the records behind the
ChangeCipherSpec up to one that is too short for a nonce and a tag. -/
def ciphertext (later : List Record) : List UInt8 :=
  (later.tail.takeWhile fun r => 8 + 16 ≤ r.payload.length).flatMap fun r =>
    if r.type = 23 then (r.payload.drop 8).take (r.payload.length - 8 - 16) else []

/-- The readings name the same suite, and, where that is decrypted, the same client random, and the
same server random unless nothing is there to be opened. -/
def Alike (outLater inLater : List Record) (a a' : Option Reading) : Prop :=
  (a.map Reading.cipherSuite).getD 0 = (a'.map Reading.cipherSuite).getD 0 ∧
    ∀ b ∈ a, ∀ b' ∈ a', (gcmSuite b.cipherSuite).isSome = true →
      b.clientRandom = b'.clientRandom ∧
        (b.serverRandom = b'.serverRandom ∨ ciphertext outLater = [] ∧ ciphertext inLater = [])

section

variable (A : Gcm) (H : Hmac)

/-- With this cipher and this HMAC, the keys of the readings open the same of the later records. -/
def Agree (outLater inLater : List Record) (a a' : Option Reading) : Prop :=
  (a.map Reading.cipherSuite).getD 0 = (a'.map Reading.cipherSuite).getD 0 ∧
    ∀ b ∈ a, ∀ b' ∈ a', ∀ si ∈ gcmSuite b.cipherSuite, b.clientRandom = b'.clientRandom ∧
      ∀ master : List UInt8, master.length = 48 →
        b.plaintexts A H master si outLater inLater = b'.plaintexts A H master si outLater inLater

/-- Clear records do not count for what is decrypted. -/
theorem decryptDir_clear {clear : List Record} (h : ∀ r ∈ clear, r.type ≠ 20) (later : List Record)
    (key iv : List UInt8) : decryptDir A (clear ++ later) key iv = decryptDir A later key iv := by
  rw [decryptDir, decryptDir, decryptLoop_clear key h]

theorem outcome_clear {clearOut clearIn : List Record} (ho : ∀ r ∈ clearOut, r.type ≠ 20)
    (hi : ∀ r ∈ clearIn, r.type ≠ 20) (outLater inLater : List Record) (keylog : TlsKeyLog)
    (a : Option Reading) : outcome A H keylog a (clearOut ++ outLater) (clearIn ++ inLater) =
      outcome A H keylog a outLater inLater := by
  simp only [outcome, Reading.plaintexts, decryptDir_clear A ho, decryptDir_clear A hi]

end

/-! ### Keylogs that tell readings apart -/

/-- A keylog with one line. -/
def oneKey (clientRandom master : List UInt8) : TlsKeyLog where
  map digits := if digits = bytesToHex clientRandom then some master else none

/-- The value of a digit of `bytesToHex`. -/
def hexValue (d : UInt8) : Nat := if d.toNat < 0x61 then d.toNat - 0x30 else d.toNat - 0x57

theorem hex_digit {n : Nat} (h : n < 16) : ∃ d, hex n = [d] ∧ hexValue d = n := by
  have hall : ∀ n < 16, hex n = [(hex n).headD 0] ∧ hexValue ((hex n).headD 0) = n := by decide
  exact ⟨_, hall n h⟩

theorem bytesToHex_cons (b : UInt8) (bs : List UInt8) : ∃ d e,
    bytesToHex (b :: bs) = d :: e :: bytesToHex bs ∧ 16 * hexValue d + hexValue e = b.toNat := by
  have hb := b.toNat_lt
  obtain ⟨d, hd, hhigh⟩ := hex_digit (show b.toNat / 16 < 16 by omega)
  obtain ⟨e, he, hlow⟩ := hex_digit (show b.toNat % 16 < 16 by omega)
  refine ⟨d, e, ?_, by omega⟩
  rw [bytesToHex, List.flatMap_cons, hd, he]
  rfl

theorem bytesToHex_injective : Function.Injective bytesToHex := by
  intro xs
  induction xs with
  | nil =>
    intro ys h
    cases ys with
    | nil => rfl
    | cons y ys =>
      obtain ⟨d, e, hhex, -⟩ := bytesToHex_cons y ys
      rw [hhex] at h
      contradiction
  | cons x xs ih =>
    intro ys h
    obtain ⟨d, e, hhex, hx⟩ := bytesToHex_cons x xs
    rw [hhex] at h
    cases ys with
    | nil => contradiction
    | cons y ys =>
      obtain ⟨d', e', hhex', hy⟩ := bytesToHex_cons y ys
      rw [hhex'] at h
      obtain ⟨rfl, htail⟩ := List.cons_eq_cons.mp h
      obtain ⟨rfl, hrest⟩ := List.cons_eq_cons.mp htail
      rw [UInt8.toNat_inj.mp (hx.symm.trans hy), ih hrest]

theorem oneKey_same (cr master : List UInt8) : (oneKey cr master).masterSecret cr = master := by
  simp [TlsKeyLog.masterSecret, oneKey]

theorem oneKey_other {cr cr' : List UInt8} (master : List UInt8) (h : cr' ≠ cr) :
    (oneKey cr master).masterSecret cr' = [] := by
  have hdigits : bytesToHex cr' ≠ bytesToHex cr := bytesToHex_injective.ne h
  simp [TlsKeyLog.masterSecret, oneKey, hdigits]

variable (A : Gcm) (H : Hmac)

theorem outcome_undecrypted {a : Reading} (h : gcmSuite a.cipherSuite = none) (keylog : TlsKeyLog)
    (outRecs inRecs : List Record) :
    outcome A H keylog (some a) outRecs inRecs = some (false, a.cipherSuite, [], []) := by
  simp only [outcome, h]

theorem outcome_keyless {a : Reading} {keylog : TlsKeyLog}
    (h : (keylog.masterSecret a.clientRandom).length ≠ 48) (outRecs inRecs : List Record) :
    outcome A H keylog (some a) outRecs inRecs = some (false, a.cipherSuite, [], []) := by
  cases hsuite : gcmSuite a.cipherSuite with
  | none => exact outcome_undecrypted A H hsuite keylog outRecs inRecs
  | some si => simp only [outcome, hsuite, if_pos h]

theorem outcome_decrypted {a : Reading} {si : SuiteInfo} (hsuite : gcmSuite a.cipherSuite = some si)
    {keylog : TlsKeyLog} {master : List UInt8} (hkey : keylog.masterSecret a.clientRandom = master)
    (hmaster : master.length = 48) (outRecs inRecs : List Record) :
    outcome A H keylog (some a) outRecs inRecs =
      (a.plaintexts A H master si outRecs inRecs).map fun plain => (true, a.cipherSuite, plain) := by
  subst hkey
  simp only [outcome, hsuite]
  rw [if_neg (not_not.mpr hmaster)]

/-- Without keys all that is left of a reading is the suite. -/
theorem outcome_noKeys (a : Option Reading) (outRecs inRecs : List Record) :
    outcome A H ⟨fun _ => none⟩ a outRecs inRecs =
      some (false, (a.map Reading.cipherSuite).getD 0, [], []) := by
  cases a with
  | none => rfl
  | some a =>
    have hlen : ((TlsKeyLog.mk fun _ => none).masterSecret a.clientRandom).length ≠ 48 := by
      show ([] : List UInt8).length ≠ 48
      decide
    exact outcome_keyless A H hlen outRecs inRecs

/-- A keylog with the client's secret alone tells readings of different clients apart, and the
secret those with keys that do not open the same. -/
theorem Agree.of_outcome {outLater inLater : List Record} {a a' : Option Reading}
    (h : ∀ keylog, outcome A H keylog a outLater inLater = outcome A H keylog a' outLater inLater) :
    Agree A H outLater inLater a a' := by
  have hsuite : (a.map Reading.cipherSuite).getD 0 = (a'.map Reading.cipherSuite).getD 0 := by
    have hempty := h ⟨fun _ => none⟩
    rw [outcome_noKeys, outcome_noKeys] at hempty
    exact congrArg (·.2.1) (Option.some.inj hempty)
  refine ⟨hsuite, ?_⟩
  rintro b rfl b' rfl si hsi
  have hsi' : gcmSuite b'.cipherSuite = some si := (show b.cipherSuite = b'.cipherSuite from hsuite) ▸ hsi
  have hclient : b.clientRandom = b'.clientRandom := by
    by_contra hne
    have hkey := h (oneKey b.clientRandom (List.replicate 48 0))
    rw [outcome_decrypted A H hsi (oneKey_same _ _) rfl, outcome_keyless A H (by
      rw [oneKey_other _ (Ne.symm hne)]
      decide)] at hkey
    obtain ⟨plain, -, hplain⟩ := Option.map_eq_some_iff.mp hkey
    cases hplain
  refine ⟨hclient, fun master hmaster => ?_⟩
  have hkey := h (oneKey b.clientRandom master)
  rw [outcome_decrypted A H hsi (oneKey_same _ _) hmaster,
    outcome_decrypted A H hsi' (hclient ▸ oneKey_same _ _) hmaster,
    show b.cipherSuite = b'.cipherSuite from hsuite] at hkey
  apply Option.map_injective ?_ hkey
  intro p q hpq
  exact congrArg (·.2.2) hpq

theorem Agree.outcome {outLater inLater : List Record} {a a' : Option Reading}
    (h : Agree A H outLater inLater a a') (keylog : TlsKeyLog) :
    outcome A H keylog a outLater inLater = outcome A H keylog a' outLater inLater := by
  obtain ⟨hsuite, hkeys⟩ := h
  cases a with
  | none =>
    cases a' with
    | none => rfl
    | some b' =>
      have hzero : b'.cipherSuite = 0 := hsuite.symm
      rw [outcome_undecrypted A H (by rw [hzero]; rfl), hzero]
      rfl
  | some b =>
    cases a' with
    | none =>
      have hzero : b.cipherSuite = 0 := hsuite
      rw [outcome_undecrypted A H (by rw [hzero]; rfl), hzero]
      rfl
    | some b' =>
      have hsame : b.cipherSuite = b'.cipherSuite := hsuite
      cases hsi : gcmSuite b.cipherSuite with
      | none =>
        rw [outcome_undecrypted A H hsi, outcome_undecrypted A H (hsame ▸ hsi), hsame]
      | some si =>
        obtain ⟨hclient, hopen⟩ := hkeys b rfl b' rfl si hsi
        by_cases hmaster : (keylog.masterSecret b.clientRandom).length = 48
        · rw [outcome_decrypted A H hsi rfl hmaster,
            outcome_decrypted A H (hsame ▸ hsi) (by rw [hclient]) hmaster, hopen _ hmaster, hsame]
        · rw [outcome_keyless A H hmaster, outcome_keyless A H (hclient ▸ hmaster), hsame]

/-! ### What there is to open -/

/-- A plaintext is as long as its ciphertext. -/
def Gcm.Sized (A : Gcm) : Prop :=
  ∀ key nonce aad ct tag pt, A.authDecrypt key nonce aad ct tag = some pt → pt.length = ct.length

theorem gcmDecryptRecord_long (A : Gcm) (key : List UInt8) {iv : List UInt8} (hiv : iv.length = 4)
    (seq : UInt64) {r : Record} (hlong : 8 + 16 ≤ r.payload.length) : ∃ nonce ad tag,
      gcmDecryptRecord A key iv seq r = some (A.authDecrypt key nonce ad
        ((r.payload.drop 8).take (r.payload.length - 8 - 16)) tag) := by
  refine ⟨(iv.drop 0).take 4 ++ (r.payload.drop 0).take 8,
    aad seq r.type r.ver (r.payload.length - 8 - 16),
    (r.payload.drop (r.payload.length - 16)).take 16, ?_⟩
  have hnonce := @slice_of_le _ r.payload 0 8 (by omega)
  have hct := @slice_of_le _ r.payload 8 (r.payload.length - 8 - 16) (by omega)
  have htag := @slice_of_le _ r.payload (r.payload.length - 16) 16 (by omega)
  have hsalt := @slice_of_le _ iv 0 4 (by omega)
  simp only [gcmDecryptRecord, if_neg (Nat.not_lt.mpr hlong), hnonce, hct, htag, hsalt,
    Option.bind_eq_bind, Option.bind_some]

theorem ciphertext_cons (ccs r : Record) (rs : List Record) : ciphertext (ccs :: r :: rs) =
    if 8 + 16 ≤ r.payload.length then
      (if r.type = 23 then (r.payload.drop 8).take (r.payload.length - 8 - 16) else []) ++
        ciphertext (ccs :: rs)
    else [] := by
  rw [ciphertext, List.tail_cons, List.takeWhile_cons]
  by_cases hlong : 8 + 16 ≤ r.payload.length
  · simp only [hlong, decide_true, if_true, List.flatMap_cons]
    rfl
  · simp only [hlong, decide_false, Bool.false_eq_true, if_false, List.flatMap_nil]

/-- Without application data there is nothing to open, whatever the key. -/
theorem decryptLoop_idle {A : Gcm} (hA : A.Sized) (key : List UInt8) {iv : List UInt8}
    (hiv : iv.length = 4) (ccs : Record) {rs : List Record} (h : ciphertext (ccs :: rs) = [])
    (seq : UInt64) (out : List UInt8) : decryptLoop A key iv rs true seq out = some out := by
  induction rs generalizing seq with
  | nil => rfl
  | cons r rs ih =>
    rw [ciphertext_cons] at h
    rw [decryptLoop]
    by_cases hlong : 8 + 16 ≤ r.payload.length
    · rw [if_pos hlong, List.append_eq_nil_iff] at h
      obtain ⟨nonce, ad, tag, hrecord⟩ := gcmDecryptRecord_long A key hiv seq hlong
      rw [hrecord, Option.bind_eq_bind, Option.bind_some]
      cases hopen : A.authDecrypt key nonce ad
          ((r.payload.drop 8).take (r.payload.length - 8 - 16)) tag with
      | none => rfl
      | some pt =>
        have hlen := hA _ _ _ _ _ _ hopen
        have hkept : (if r.type = 23 then out ++ pt else out) = out := by
          split
          · next htype =>
            rw [if_pos htype] at h
            rw [h.1, List.length_nil] at hlen
            rw [List.eq_nil_of_length_eq_zero hlen, List.append_nil]
          · rfl
        dsimp only
        rw [hkept]
        exact ih h.2 (seq + 1)
    · have hshort : gcmDecryptRecord A key iv seq r = some none := by
        rw [gcmDecryptRecord, if_pos (Nat.lt_of_not_le hlong)]
      rw [hshort]
      rfl

theorem decryptDir_idle {A : Gcm} (hA : A.Sized) (key : List UInt8) {iv : List UInt8}
    (hiv : iv.length = 4) {later : List Record} (hccs : ∀ r ∈ later.head?, r.type = 20)
    (h : ciphertext later = []) : decryptDir A later key iv = some [] := by
  rw [decryptDir]
  split
  · rfl
  · cases later with
    | nil => rfl
    | cons ccs rs =>
      rw [decryptLoop, hccs ccs rfl]
      exact decryptLoop_idle hA key hiv ccs h 0 []

/-! A cipher that opens everything and shifts it by the first byte of the key, and an HMAC that knows one
seed: together they tell two server randoms apart wherever something is there to be opened. -/

def shiftGcm : Gcm where
  setkey _ := true
  authDecrypt key _ _ ct _ := some (ct.map (· - key.headD 0))
  cryptAndTag key _ _ pt := (pt.map (· + key.headD 0), List.replicate 16 0)

theorem shiftGcm_lawful : shiftGcm.Lawful where
  setkey _ _ := rfl
  crypt_length := by intros; exact List.length_map ..
  tag_length := by intros; exact List.length_replicate
  decrypts := by
    intro key nonce aad pt
    simp [shiftGcm, Function.comp_def]

theorem shiftGcm_sized : shiftGcm.Sized := by
  intro key nonce aad ct tag pt h
  rw [← Option.some.inj h, List.length_map]

def seedHmac (seed : List UInt8) : Hmac where
  mac md _ data := List.replicate md.size (if seed.isSuffixOf data then 1 else 0)
  length := fun _ _ _ => List.length_replicate

theorem decryptLoop_shift (key : List UInt8) {iv : List UInt8} (hiv : iv.length = 4) (ccs : Record)
    (rs : List Record) (seq : UInt64) (out : List UInt8) :
    decryptLoop shiftGcm key iv rs true seq out =
      some (out ++ (ciphertext (ccs :: rs)).map (· - key.headD 0)) := by
  induction rs generalizing seq out with
  | nil => simp [decryptLoop, ciphertext]
  | cons r rs ih =>
    rw [ciphertext_cons, decryptLoop]
    by_cases hlong : 8 + 16 ≤ r.payload.length
    · obtain ⟨nonce, ad, tag, hrecord⟩ := gcmDecryptRecord_long shiftGcm key hiv seq hlong
      have hopen : shiftGcm.authDecrypt key nonce ad
          ((r.payload.drop 8).take (r.payload.length - 8 - 16)) tag =
          some (((r.payload.drop 8).take (r.payload.length - 8 - 16)).map (· - key.headD 0)) := rfl
      rw [hrecord, Option.bind_eq_bind, Option.bind_some, if_pos hlong, hopen]
      dsimp only
      rw [ih]
      by_cases htype : r.type = 23
      · rw [if_pos htype, if_pos htype, List.map_append, List.append_assoc]
      · rw [if_neg htype, if_neg htype, List.nil_append]
    · have hshort : gcmDecryptRecord shiftGcm key iv seq r = some none := by
        rw [gcmDecryptRecord, if_pos (Nat.lt_of_not_le hlong)]
      rw [hshort, if_neg hlong, List.map_nil, List.append_nil]
      rfl

theorem decryptDir_shift (key : List UInt8) {iv : List UInt8} (hiv : iv.length = 4)
    {later : List Record} (hccs : ∀ r ∈ later.head?, r.type = 20) :
    decryptDir shiftGcm later key iv = some ((ciphertext later).map (· - key.headD 0)) := by
  cases later with
  | nil => rfl
  | cons ccs rs =>
    have hset : (!shiftGcm.setkey key) = false := rfl
    rw [decryptDir, hset, decryptLoop, hccs ccs rfl]
    exact decryptLoop_shift key hiv ccs rs 0 []

/-- Every byte of the key block says whether it comes from the seed. -/
theorem keyBlock_seed (master cr : List UInt8) {sr sr' : List UInt8} (hlen : sr'.length = sr.length)
    (si : SuiteInfo) : ∀ b ∈ keyBlock (seedHmac (text "key expansion" ++ (sr ++ cr))) master cr sr' si,
      b = if sr = sr' then 1 else 0 := by
  intro b hb
  obtain ⟨i, -, hb⟩ := List.mem_flatMap.mp (List.mem_of_mem_take hb)
  rw [(List.mem_replicate.mp hb).2]
  have hseed : (text "key expansion" ++ (sr ++ cr)) <:+ chain ((seedHmac (text "key expansion" ++
      (sr ++ cr))).mac si.prf master) (text "key expansion" ++ (sr' ++ cr)) (i + 1) ++
        (text "key expansion" ++ (sr' ++ cr)) ↔ sr = sr' := by
    constructor
    · intro hsuffix
      have hsame := List.suffix_of_suffix_length_le hsuffix (List.suffix_append _ _)
        (by simp only [List.length_append]; omega)
      have heq := hsame.eq_of_length (by simp only [List.length_append]; omega)
      exact List.append_cancel_right (List.append_cancel_left heq)
    · rintro rfl
      exact List.suffix_append _ _
  simp only [List.isSuffixOf_iff_suffix, hseed]

theorem rfcKeys_seed (master cr : List UInt8) {sr sr' : List UInt8} (hlen : sr'.length = sr.length)
    {si : SuiteInfo} (hkeyLen : 0 < si.keyLen) :
    let k := rfcKeys (seedHmac (text "key expansion" ++ (sr ++ cr))) master cr sr' si
    k.cKey.headD 0 = (if sr = sr' then 1 else 0) ∧ k.sKey.headD 0 = if sr = sr' then 1 else 0 := by
  intro k
  have hall := keyBlock_seed master cr hlen si
  obtain ⟨hcKey, hsKey, -⟩ := rfcKeys_length (seedHmac (text "key expansion" ++ (sr ++ cr))) master cr
    sr' si
  have hhead : ∀ key : List UInt8, key.length = si.keyLen →
      (∀ b ∈ key, b = if sr = sr' then 1 else 0) → key.headD 0 = if sr = sr' then 1 else 0 := by
    intro key hkey hbytes
    cases key with
    | nil => exact absurd hkey (Nat.ne_of_lt hkeyLen)
    | cons b bs => exact hbytes b (List.mem_cons_self ..)
  exact ⟨hhead _ hcKey fun b hb => hall b (List.mem_of_mem_take hb),
    hhead _ hsKey fun b hb => hall b (List.mem_of_mem_drop (List.mem_of_mem_take hb))⟩

theorem map_sub_one_ne {ct : List UInt8} (h : ct ≠ []) : ct.map (· - 1) ≠ ct.map (· - 0) := by
  cases ct with
  | nil => exact absurd rfl h
  | cons b bs =>
    intro heq
    have hhead : b - 1 = b - 0 := (List.cons.inj heq).1
    have hone : b.toNat = (b - 1).toNat := by rw [hhead, UInt8.sub_zero]
    have hb := b.toNat_lt
    rw [UInt8.toNat_sub] at hone
    simp at hone
    omega

theorem reading_serverRandom {outRecs inRecs : List Record} {b : Reading}
    (h : reading outRecs inRecs = some b) : b.serverRandom.length = 32 := by
  obtain ⟨cr, -, h⟩ := Option.bind_eq_some_iff.mp h
  obtain ⟨server, hserver, rfl⟩ := Option.map_eq_some_iff.mp h
  obtain ⟨sh, -, hread⟩ := Option.bind_eq_some_iff.mp hserver
  simp only [readServer, Option.ite_none_left_eq_some, Option.some.injEq, not_or] at hread
  obtain ⟨⟨hlong, -⟩, rfl⟩ := hread
  simp only [List.length_take, List.length_drop]
  omega

theorem gcmSuite_keyLen {cs : UInt16} {si : SuiteInfo} (h : gcmSuite cs = some si) :
    0 < si.keyLen := by
  obtain ⟨hlookup, -⟩ := Option.filter_eq_some_iff.mp h
  unfold lookupSuite at hlookup
  split_ifs at hlookup <;> (obtain rfl := Option.some.inj hlookup; decide)

/-- Alike readings give the same with every cipher whose plaintexts are as long as they should be. -/
theorem Alike.agree {A : Gcm} (hA : A.Sized) (H : Hmac) {outLater inLater : List Record}
    (hout : ∀ r ∈ outLater.head?, r.type = 20) (hin : ∀ r ∈ inLater.head?, r.type = 20)
    {a a' : Option Reading} (h : Alike outLater inLater a a') : Agree A H outLater inLater a a' := by
  refine ⟨h.1, ?_⟩
  rintro b rfl b' rfl si hsi
  have hsuite : b.cipherSuite = b'.cipherSuite := h.1
  obtain ⟨hclient, hserver⟩ := h.2 b rfl b' rfl (Option.isSome_of_mem hsi)
  refine ⟨hclient, fun master _ => ?_⟩
  rcases hserver with hserver | ⟨hnoOut, hnoIn⟩
  · obtain rfl : b = b' := by
      cases b
      cases b'
      simp only at hsuite hclient hserver
      rw [hsuite, hclient, hserver]
    rfl
  · have hidle : ∀ x : Reading, x.plaintexts A H master si outLater inLater = some ([], []) := by
      intro x
      obtain ⟨-, -, hcIV, hsIV⟩ := rfcKeys_length H master x.clientRandom x.serverRandom si
      rw [Reading.plaintexts]
      simp only [decryptDir_idle hA _ hcIV hout hnoOut, decryptDir_idle hA _ hsIV hin hnoIn]
      rfl
    rw [hidle, hidle]

/-- Readings that give the same with every lawful cipher and every HMAC are alike. -/
theorem Alike.of_agree {outLater inLater : List Record}
    (hout : ∀ r ∈ outLater.head?, r.type = 20) (hin : ∀ r ∈ inLater.head?, r.type = 20)
    {a a' : Option Reading} (ha : ∀ b ∈ a, b.serverRandom.length = 32)
    (ha' : ∀ b ∈ a', b.serverRandom.length = 32)
    (h : ∀ H, Agree shiftGcm H outLater inLater a a') : Alike outLater inLater a a' := by
  refine ⟨(h cutHmac).1, ?_⟩
  rintro b hb b' hb' hsome
  obtain ⟨si, hsi⟩ := Option.isSome_iff_exists.mp hsome
  obtain ⟨hclient, -⟩ := (h cutHmac).2 b hb b' hb' si hsi
  refine ⟨hclient, ?_⟩
  by_cases hserver : b.serverRandom = b'.serverRandom
  · exact .inl hserver
  refine .inr ?_
  -- with an HMAC that knows the seed of `b`, the first byte of a key is 1 for it and 0 for `b'`
  let H := seedHmac (text "key expansion" ++ (b.serverRandom ++ b.clientRandom))
  have hlen : b'.serverRandom.length = b.serverRandom.length := by rw [ha b hb, ha' b' hb']
  have hplain := ((h H).2 b hb b' hb' si hsi).2 (List.replicate 48 0) rfl
  have hseed := rfcKeys_seed (List.replicate 48 0) b.clientRandom
    (rfl : b.serverRandom.length = b.serverRandom.length) (gcmSuite_keyLen hsi)
  have hother := rfcKeys_seed (List.replicate 48 0) b.clientRandom hlen (gcmSuite_keyLen hsi)
  obtain ⟨-, -, hcIV, hsIV⟩ := rfcKeys_length H (List.replicate 48 0) b.clientRandom b.serverRandom si
  obtain ⟨-, -, hcIV', hsIV'⟩ :=
    rfcKeys_length H (List.replicate 48 0) b.clientRandom b'.serverRandom si
  rw [Reading.plaintexts, Reading.plaintexts, ← hclient] at hplain
  simp only [decryptDir_shift _ hcIV hout, decryptDir_shift _ hsIV hin, decryptDir_shift _ hcIV' hout,
    decryptDir_shift _ hsIV' hin, Option.bind_some, Option.map_some, Option.some.injEq,
    Prod.mk.injEq] at hplain
  simp only [if_true] at hseed
  simp only [if_neg hserver] at hother
  rw [hseed.1, hseed.2, hother.1, hother.2] at hplain
  exact ⟨not_imp_comm.mp map_sub_one_ne (not_not.mpr hplain.1),
    not_imp_comm.mp map_sub_one_ne (not_not.mpr hplain.2)⟩

theorem Refragmented.seen {out out' inn inn' : List UInt8}
    {clearOut clearOut' laterOut clearIn clearIn' laterIn : List Record}
    (ho : Refragmented out out' clearOut clearOut' laterOut)
    (hi : Refragmented inn inn' clearIn clearIn' laterIn) (keylog : TlsKeyLog) :
    (tlsDecryptFlow A H out inn keylog).map TlsDecryptResult.seen =
      outcome A H keylog (reading (clearOut ++ laterOut) (clearIn ++ laterIn)) laterOut laterIn := by
  rw [tlsDecryptFlow_seen A H ho.parses hi.parses, outcome_clear A H ho.plain hi.plain]

/-- Two captures are decrypted alike, with every keylog and whatever the cipher and the HMAC compute,
exactly when the messages that are whole in a record read alike. -/
theorem same_result_iff {out out' inn inn' : List UInt8}
    {clearOut clearOut' laterOut clearIn clearIn' laterIn : List Record}
    (ho : Refragmented out out' clearOut clearOut' laterOut)
    (hi : Refragmented inn inn' clearIn clearIn' laterIn) :
    (∀ (A : Gcm) (H : Hmac), A.Lawful → A.Sized → ∀ keylog,
      (tlsDecryptFlow A H out inn keylog).map TlsDecryptResult.seen =
        (tlsDecryptFlow A H out' inn' keylog).map TlsDecryptResult.seen) ↔
      Alike laterOut laterIn (reading (clearOut ++ laterOut) (clearIn ++ laterIn))
        (reading (clearOut' ++ laterOut) (clearIn' ++ laterIn)) := by
  simp only [ho.seen _ _ hi, ho.symm.seen _ _ hi.symm]
  constructor
  · intro h
    exact Alike.of_agree ho.ccs hi.ccs (fun b hb => reading_serverRandom hb)
      (fun b hb => reading_serverRandom hb) fun H =>
        Agree.of_outcome shiftGcm H (h shiftGcm H shiftGcm_lawful shiftGcm_sized)
  · intro h A H _ hA keylog
    exact (h.agree hA H ho.ccs hi.ccs).outcome A H keylog

/-! ### Records that hold whole messages -/

theorem messages_eq (recs : List Record) : recs.flatMap Record.messages =
    (recs.filter fun r => r.type = 22).flatMap fun r => messageFraming.frames r.payload := by
  induction recs with
  | nil => rfl
  | cons r recs ih =>
    rw [List.flatMap_cons, ih, Record.messages]
    by_cases hr : r.type = 22
    · simp [hr]
    · simp [hr]

/-- Up to the message of the type, no message is cut by a record. -/
def Aligned (type : UInt8) (clear : List Record) : Prop :=
  ∃ pre post, clear = pre ++ post ∧ (hello type pre).isSome ∧
    ∀ r ∈ pre, r.type = 22 → messageFraming.Whole r.payload

/-- Then the message is the first one in the handshake as a whole. -/
theorem Aligned.hello_eq {type : UInt8} {clear : List Record} (h : Aligned type clear)
    (later : List Record) :
    hello type (clear ++ later) = ofType type (messageFraming.frames (handshake clear)) := by
  obtain ⟨pre, post, rfl, hfound, hwhole⟩ := h
  have hpre : hello type (pre ++ post ++ later) = hello type pre := by
    rw [List.append_assoc, hello, List.flatMap_append, ofType_append]
    exact Option.or_of_isSome hfound
  have hframes : messageFraming.frames (handshake (pre ++ post)) =
      pre.flatMap Record.messages ++ messageFraming.frames (handshake post) := by
    rw [handshake, List.filter_append, List.flatMap_append, frames_flatMap, messages_eq]
    · rfl
    · intro r hr
      obtain ⟨hmem, htype⟩ := List.mem_filter.mp hr
      exact hwhole r hmem (of_decide_eq_true htype)
  rw [hpre, hframes, ofType_append]
  exact (Option.or_of_isSome hfound).symm

/-- Where no message up to the hellos is cut, it does not matter where the records are. -/
theorem Refragmented.same_of_aligned {out out' inn inn' : List UInt8}
    {clearOut clearOut' laterOut clearIn clearIn' laterIn : List Record}
    (ho : Refragmented out out' clearOut clearOut' laterOut)
    (hi : Refragmented inn inn' clearIn clearIn' laterIn) (hout : Aligned 1 clearOut)
    (hout' : Aligned 1 clearOut') (hin : Aligned 2 clearIn) (hin' : Aligned 2 clearIn')
    (keylog : TlsKeyLog) : (tlsDecryptFlow A H out inn keylog).map TlsDecryptResult.seen =
      (tlsDecryptFlow A H out' inn' keylog).map TlsDecryptResult.seen := by
  rw [ho.seen A H hi, ho.symm.seen A H hi.symm, reading, reading, hout.hello_eq, hout'.hello_eq,
    hin.hello_eq, hin'.hello_eq, ho.same, hi.same]

theorem Alike.refl (outLater inLater : List Record) (a : Option Reading) :
    Alike outLater inLater a a := by
  refine ⟨rfl, ?_⟩
  intro b hb b' hb' _
  obtain rfl : b = b' := Option.some.inj (hb.symm.trans hb')
  exact ⟨rfl, .inl rfl⟩

theorem sumGcm_sized : sumGcm.Sized := by
  intro key nonce aad ct tag pt h
  obtain ⟨-, heq⟩ := Option.ite_none_right_eq_some.mp h
  rw [Option.some.inj heq]

/-! A ClientHello, with what follows it in clear, in one record and in two. -/

def laterClient : List Record :=
  clientSide.ccs :: protectAll sumGcm someKeys.cKey someKeys.cIV 0 clientSide.plains

def clearServer : List Record := [⟨22, 0x0303, someServer.message.whole⟩]

def laterServer : List Record :=
  serverSide.ccs :: protectAll sumGcm someKeys.sKey someKeys.sIV 0 serverSide.plains

/-- The first `n` octets of the handshake in one record, and the others in a second one. -/
def clearClient (n : Nat) : List Record :=
  [⟨22, 0x0301, (someClient.message.whole ++ [16, 0, 0, 0]).take n⟩,
    ⟨22, 0x0303, (someClient.message.whole ++ [16, 0, 0, 0]).drop n⟩]

theorem clearClient_refragmented {m n : Nat}
    (hm : parseRecords (streamOf (clearClient m ++ laterClient)) = some (clearClient m ++ laterClient))
    (hn : parseRecords (streamOf (clearClient n ++ laterClient)) = some (clearClient n ++ laterClient)) :
    Refragmented (streamOf (clearClient m ++ laterClient)) (streamOf (clearClient n ++ laterClient))
      (clearClient m) (clearClient n) laterClient := by
  constructor
  case parses => exact hm
  case parses' => exact hn
  case plain => simp [clearClient]
  case plain' => simp [clearClient]
  case ccs => decide
  case same => simp [handshake, clearClient]

theorem clearServer_refragmented : Refragmented (streamOf (clearServer ++ laterServer))
    (streamOf (clearServer ++ laterServer)) clearServer clearServer laterServer := by
  constructor
  case parses => decide +kernel
  case parses' => decide +kernel
  case plain => decide
  case plain' => decide
  case ccs => decide
  case same => rfl

/-- The second message is cut, or not. -/
theorem same_result_behind_hello :
    (tlsDecryptFlow sumGcm cutHmac (streamOf (clearClient someClient.message.whole.length ++ laterClient))
      (streamOf (clearServer ++ laterServer)) someKeylog).map TlsDecryptResult.seen =
    (tlsDecryptFlow sumGcm cutHmac
      (streamOf (clearClient (someClient.message.whole.length + 2) ++ laterClient))
      (streamOf (clearServer ++ laterServer)) someKeylog).map TlsDecryptResult.seen := by
  have hreading : reading (clearClient someClient.message.whole.length ++ laterClient)
      (clearServer ++ laterServer) =
      reading (clearClient (someClient.message.whole.length + 2) ++ laterClient)
        (clearServer ++ laterServer) := by decide +kernel
  have hcut := @clearClient_refragmented someClient.message.whole.length
    (someClient.message.whole.length + 2) (by decide +kernel) (by decide +kernel)
  have halike := (same_result_iff hcut clearServer_refragmented).mpr (by
    rw [hreading]
    exact Alike.refl ..)
  exact halike sumGcm cutHmac sumGcm_lawful sumGcm_sized someKeylog

/-- A ClientHello that is cut is not found. -/
theorem split_hello_undecrypted : ¬ ∀ (A : Gcm) (H : Hmac) (out out' inn inn' : List UInt8)
    (clearOut clearOut' laterOut clearIn clearIn' laterIn : List Record), A.Lawful → A.Sized →
    Refragmented out out' clearOut clearOut' laterOut →
    Refragmented inn inn' clearIn clearIn' laterIn →
    ∀ keylog, (tlsDecryptFlow A H out inn keylog).map TlsDecryptResult.seen =
      (tlsDecryptFlow A H out' inn' keylog).map TlsDecryptResult.seen := by
  intro h
  have hsame := h sumGcm cutHmac _ _ _ _ _ _ _ _ _ _ sumGcm_lawful sumGcm_sized
    (clearClient_refragmented (m := someClient.message.whole.length) (n := 10)
      (by decide +kernel) (by decide +kernel)) clearServer_refragmented someKeylog
  have hwhole : (tlsDecryptFlow sumGcm cutHmac
      (streamOf (clearClient someClient.message.whole.length ++ laterClient))
      (streamOf (clearServer ++ laterServer)) someKeylog).map TlsDecryptResult.seen =
      some (true, 0xC02F, text "GET /index", text "200") := by decide +kernel
  have hcut : (tlsDecryptFlow sumGcm cutHmac (streamOf (clearClient 10 ++ laterClient))
      (streamOf (clearServer ++ laterServer)) someKeylog).map TlsDecryptResult.seen =
      some (false, 0, [], []) := by decide +kernel
  rw [hwhole, hcut] at hsame
  contradiction

end NetDebugger.Tls
