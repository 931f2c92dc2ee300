import NetDebugger.Lib.Checked
import NetDebugger.Lib.Window
import NetDebugger.Tls.Complete

/-! The decryptor with the pointers of the source: the payload of a record and the body of a message are
windows into the captured stream.  Reads are checked against the window and the stream, and sums and
differences of words must not wrap; an index below such a sum is not checked again.  It does what the
decryptor does. -/

namespace NetDebugger.Tls

open Lib

/-! ### The decryptor with checks -/

/-- `Record`, whose payload is a pointer into the stream. -/
structure RecordView where
  type : UInt8
  ver : UInt16
  payload : Window

def parseRecordsLoop64 (s : List UInt8) : Nat → Nat → List RecordView → Option (List RecordView)
  | 0, _, _ => none
  | fuel + 1, i, recs => do
    let head ← checkedAdd 64 i 5
    if head ≤ s.length then do
      let type ← s[i]?
      let v1 ← s[i + 1]?
      let v0 ← s[i + 2]?
      let l1 ← s[i + 3]?
      let l0 ← s[i + 4]?
      let ver := UInt16.ofNat (beNat [v1, v0])
      let len := beNat [l1, l0]
      let stop ← checkedAdd 64 head len
      if stop > s.length then some recs
      else parseRecordsLoop64 s fuel stop (recs ++ [⟨type, ver, ⟨head, len⟩⟩])
    else some recs

def parseRecords64 (s : List UInt8) : Option (List RecordView) :=
  parseRecordsLoop64 s (s.length + 1) 0 []

section

variable (s : List UInt8)

def findInRecord64 (wantType : UInt8) (p : Window) : Nat → Nat → Option (Option Window)
  | 0, _ => none
  | fuel + 1, i => do
    let head ← checkedAdd 64 i 4
    if head ≤ p.len then do
      let ht ← p.get? s i
      let l2 ← p.get? s (i + 1)
      let l1 ← p.get? s (i + 2)
      let l0 ← p.get? s (i + 3)
      let hl := beNat [l2, l1, l0]
      let stop ← checkedAdd 64 head hl
      if stop > p.len then some none
      else if ht = wantType then some (some ⟨p.start + head, hl⟩)
      else do
        -- the step is a sum of 32 bits
        let i ← checkedAdd 64 i (← checkedAdd 32 4 hl)
        findInRecord64 wantType p fuel i
    else some none

def findHandshake64 (wantType : UInt8) : List RecordView → Option (Option Window)
  | [] => some none
  | r :: recs =>
    if r.type ≠ 22 then findHandshake64 wantType recs
    else do
      match ← findInRecord64 s wantType r.payload (r.payload.len + 1) 0 with
      | some body => some (some body)
      | none => findHandshake64 wantType recs

variable (A : Gcm)

def gcmDecryptRecord64 (key iv4 : List UInt8) (seq : UInt64) (r : RecordView) :
    Option (Option (List UInt8)) :=
  if r.payload.len < 8 + 16 then some none
  else do
    let explicitN ← r.payload.copy s 0 8
    let ctLen ← checkedSub (← checkedSub r.payload.len 8) 16
    let ct ← r.payload.copy s 8 ctLen
    let tag ← r.payload.copy s (← checkedSub r.payload.len 16) 16
    let salt ← slice iv4 0 4
    some (A.authDecrypt key (salt ++ explicitN) (aad seq r.type r.ver ctLen) ct tag)

def decryptLoop64 (key iv4 : List UInt8) : List RecordView → Bool → UInt64 → List UInt8 →
    Option (List UInt8)
  | [], _, _, out => some out
  | r :: recs, false, seq, out => decryptLoop64 key iv4 recs (r.type = 20) seq out
  | r :: recs, true, seq, out => do
    match ← gcmDecryptRecord64 s A key iv4 seq r with
    | none => some out
    | some pt => decryptLoop64 key iv4 recs true (seq + 1) (if r.type = 23 then out ++ pt else out)

def decryptDir64 (recs : List RecordView) (key iv4 : List UInt8) : Option (List UInt8) :=
  if !A.setkey key then some [] else decryptLoop64 s A key iv4 recs false 0 []

end

/-- `DeriveKeyBlock`, which copies 32 bytes of each random. -/
def deriveKeyBlock64 (H : Hmac) (master cr sr : List UInt8) (si : SuiteInfo) : Option DirKeys := do
  let server ← slice sr 0 32
  let client ← slice cr 0 32
  deriveKeyBlock H master client server si

/-- `TlsDecryptFlow` with checks. -/
def tlsDecryptFlow64 (A : Gcm) (H : Hmac) (outStream inStream : List UInt8) (keylog : TlsKeyLog) :
    Option TlsDecryptResult := do
  let outRecs ← parseRecords64 outStream
  let inRecs ← parseRecords64 inStream
  let noClient := TlsDecryptResult.failed
    (text "no ClientHello (client_random) in the outbound stream") 0 false
  let some ch ← findHandshake64 outStream 1 outRecs | some noClient
  if ch.len < 34 then some noClient else do
  let noServer := TlsDecryptResult.failed (text "no ServerHello in the inbound stream") 0 false
  let some sh ← findHandshake64 inStream 2 inRecs | some noServer
  if sh.len < 35 then some noServer else do
  let cr ← ch.copy outStream 2 32
  let sr ← sh.copy inStream 2 32
  let sidLen ← sh.get? inStream (2 + 32)
  let off ← checkedAdd 64 (2 + 32 + 1) sidLen.toNat
  if (← checkedAdd 64 off 2) > sh.len then some (.failed (text "malformed ServerHello") 0 false)
  else do
  let c1 ← sh.get? inStream off
  let c0 ← sh.get? inStream (off + 1)
  let suite := UInt16.ofNat (beNat [c1, c0])
  match lookupSuite suite with
  | none => some (.failed (text "unsupported cipher suite 0x" ++ hex4 suite.toNat) suite false)
  | some si =>
    if si.tls13 then
      some (.failed (text "TLS 1.3 capture (decryptor handles TLS 1.2 GCM so far)") suite true)
    else if !si.gcm then some (.failed (text "non-GCM cipher not supported yet") suite false)
    else do
      let master := keylog.masterSecret cr
      if master.length ≠ 48 then
        some (.failed (text "no master secret for this client_random in the keylog") suite false)
      else do
        let k ← deriveKeyBlock64 H master cr sr si
        let outPlain ← decryptDir64 outStream A outRecs k.cKey k.cIV
        let inPlain ← decryptDir64 inStream A inRecs k.sKey k.sIV
        some ⟨true, [], suite, false, outPlain, inPlain⟩

/-! ### Records -/

/-- The record that a view shows. -/
def RecordView.read (s : List UInt8) (v : RecordView) : Record := ⟨v.type, v.ver, v.payload.view s⟩

/-- The payloads lie in the stream. -/
def Within (s : List UInt8) (vs : List RecordView) : Prop := ∀ v ∈ vs, v.payload.Inside s

theorem parseRecordsLoop64_spec {s : List UInt8} (hs : s.length < 2 ^ 63) {fuel i : Nat}
    (hi : i ≤ s.length) (hfuel : s.length < fuel + i) {vs : List RecordView} (hvs : Within s vs) :
    ∃ vs', parseRecordsLoop64 s fuel i vs = some vs' ∧ Within s vs' ∧
      parseRecordsLoop s fuel i (vs.map (RecordView.read s)) = some (vs'.map (RecordView.read s)) := by
  induction fuel generalizing i vs with
  | zero => omega
  | succ fuel ih =>
    unfold parseRecordsLoop64 parseRecordsLoop
    rw [checkedAdd_of_lt (show i + 5 < 2 ^ 64 by omega), Option.bind_eq_bind, Option.bind_some]
    by_cases hhead : i + 5 ≤ s.length
    · rw [if_pos hhead, if_pos hhead, getElem?_eq_getD (show i < s.length by omega),
        getElem?_eq_getD (show i + 1 < s.length by omega),
        getElem?_eq_getD (show i + 2 < s.length by omega),
        getElem?_eq_getD (show i + 3 < s.length by omega),
        getElem?_eq_getD (show i + 4 < s.length by omega)]
      simp only [Option.bind_eq_bind, Option.bind_some]
      have hlen : beNat [s.getD (i + 3) 0, s.getD (i + 4) 0] < 256 ^ 2 := beNat_lt rfl
      generalize beNat [s.getD (i + 3) 0, s.getD (i + 4) 0] = len at hlen ⊢
      rw [checkedAdd_of_lt (show i + 5 + len < 2 ^ 64 by omega), Option.bind_some]
      by_cases hcut : i + 5 + len > s.length
      · rw [if_pos hcut, if_pos hcut]
        exact ⟨vs, rfl, hvs, rfl⟩
      · rw [if_neg hcut, if_neg hcut, slice_of_le (Nat.le_of_not_gt hcut), Option.bind_some]
        let v : RecordView := ⟨s.getD i 0,
          UInt16.ofNat (beNat [s.getD (i + 1) 0, s.getD (i + 2) 0]), ⟨i + 5, len⟩⟩
        have hmore : Within s (vs ++ [v]) := by
          intro u hu
          rcases List.mem_append.mp hu with hold | hnew
          · exact hvs u hold
          · obtain rfl := List.mem_singleton.mp hnew
            exact Nat.le_of_not_gt hcut
        have hnext := @ih (i + 5 + len) (Nat.le_of_not_gt hcut) (by omega) (vs ++ [v]) hmore
        rw [List.map_append] at hnext
        exact hnext
    · rw [if_neg hhead, if_neg hhead]
      exact ⟨vs, rfl, hvs, rfl⟩

/-- Every payload is a part of the stream. -/
theorem parseRecords64_spec {s : List UInt8} (hs : s.length < 2 ^ 63) :
    ∃ vs, parseRecords64 s = some vs ∧ Within s vs ∧
      parseRecords s = some (vs.map (RecordView.read s)) :=
  parseRecordsLoop64_spec hs (Nat.zero_le _) (Nat.lt_succ_self _) (fun _ h => by cases h)

/-! ### Messages -/

theorem findInRecord64_spec {s : List UInt8} (hs : s.length < 2 ^ 63) (wantType : UInt8) {p : Window}
    (hp : p.Inside s) {fuel i : Nat} (hi : i ≤ p.len) (hfuel : p.len < fuel + i) :
    ∃ b, findInRecord64 s wantType p fuel i = some b ∧ (∀ w ∈ b, w.Inside s) ∧
      findInRecord wantType (p.view s) fuel i = some (b.map fun w => w.view s) := by
  have hview := hp.view_length
  have hlen : p.len < 2 ^ 63 := by
    unfold Window.Inside at hp
    omega
  induction fuel generalizing i with
  | zero => omega
  | succ fuel ih =>
    unfold findInRecord64 findInRecord
    rw [checkedAdd_of_lt (show i + 4 < 2 ^ 64 by omega), Option.bind_eq_bind, Option.bind_some, hview]
    by_cases hhead : i + 4 ≤ p.len
    · obtain ⟨ht, hht⟩ := hp.get?_some (show i < p.len by omega)
      obtain ⟨l2, hl2⟩ := hp.get?_some (show i + 1 < p.len by omega)
      obtain ⟨l1, hl1⟩ := hp.get?_some (show i + 2 < p.len by omega)
      obtain ⟨l0, hl0⟩ := hp.get?_some (show i + 3 < p.len by omega)
      simp only [if_pos hhead, ← Window.get?_eq, hht, hl2, hl1, hl0, Option.bind_eq_bind,
        Option.bind_some]
      have hbody : beNat [l2, l1, l0] < 256 ^ 3 := beNat_lt rfl
      generalize beNat [l2, l1, l0] = hl at hbody ⊢
      rw [checkedAdd_of_lt (show i + 4 + hl < 2 ^ 64 by omega), Option.bind_some]
      by_cases hcut : i + 4 + hl > p.len
      · rw [if_pos hcut, if_pos hcut]
        exact ⟨none, rfl, by simp, rfl⟩
      rw [if_neg hcut, if_neg hcut]
      by_cases htype : ht = wantType
      · obtain ⟨hinside, hslice⟩ := hp.part (Nat.le_of_not_gt hcut)
        rw [if_pos htype, if_pos htype, hslice]
        exact ⟨_, rfl, by simpa using hinside, rfl⟩
      · rw [if_neg htype, if_neg htype, checkedAdd_of_lt (show 4 + hl < 2 ^ 32 by omega),
          Option.bind_some, checkedAdd_of_lt (show i + (4 + hl) < 2 ^ 64 by omega), Option.bind_some,
          ← Nat.add_assoc]
        exact ih (Nat.le_of_not_gt hcut) (by omega)
    · rw [if_neg hhead, if_neg hhead]
      exact ⟨none, rfl, by simp, rfl⟩

/-- A body that is found is a part of the stream. -/
theorem findHandshake64_spec {s : List UInt8} (hs : s.length < 2 ^ 63) (wantType : UInt8)
    {vs : List RecordView} (hvs : Within s vs) :
    ∃ b, findHandshake64 s wantType vs = some b ∧ (∀ w ∈ b, w.Inside s) ∧
      findHandshake wantType (vs.map (RecordView.read s)) = some (b.map fun w => w.view s) := by
  induction vs with
  | nil => exact ⟨none, rfl, by simp, rfl⟩
  | cons v vs ih =>
    obtain ⟨b, hb, hinside, hread⟩ := ih fun u hu => hvs u (List.mem_cons_of_mem _ hu)
    have hv := hvs v (List.mem_cons_self ..)
    have hpayload : (v.read s).payload = v.payload.view s := rfl
    have hkind : (v.read s).type = v.type := rfl
    rw [findHandshake64, List.map_cons, findHandshake, hkind, hpayload, hv.view_length]
    by_cases htype : v.type ≠ 22
    · rw [if_pos htype, if_pos htype]
      exact ⟨b, hb, hinside, hread⟩
    obtain ⟨m, hm, hwithin, hfound⟩ :=
      findInRecord64_spec hs wantType hv (Nat.zero_le _) (Nat.lt_succ_self v.payload.len)
    rw [if_neg htype, if_neg htype, hm, hfound]
    cases m with
    | none => exact ⟨b, hb, hinside, hread⟩
    | some w => exact ⟨some w, rfl, hwithin, rfl⟩

/-! ### Decryption -/

section

variable {s : List UInt8} (A : Gcm)

/-- The difference does not go below zero: a record of less than 24 bytes is refused. -/
theorem gcmDecryptRecord64_eq (key iv4 : List UInt8) (seq : UInt64) {v : RecordView}
    (hv : v.payload.Inside s) :
    gcmDecryptRecord64 s A key iv4 seq v = gcmDecryptRecord A key iv4 seq (v.read s) := by
  have hlen : (v.read s).payload.length = v.payload.len := hv.view_length
  have hcopy : ∀ off n, v.payload.copy s off n = slice (v.read s).payload off n := hv.copy_eq
  unfold gcmDecryptRecord64 gcmDecryptRecord
  rw [hlen]
  by_cases hshort : v.payload.len < 8 + 16
  · rw [if_pos hshort, if_pos hshort]
  · rw [if_neg hshort, if_neg hshort, checkedSub_of_le (show 8 ≤ v.payload.len by omega),
      checkedSub_of_le (show 16 ≤ v.payload.len by omega)]
    simp only [Option.bind_eq_bind, Option.bind_some,
      checkedSub_of_le (show 16 ≤ v.payload.len - 8 by omega), hcopy]
    rfl

theorem decryptLoop64_eq (key iv4 : List UInt8) {vs : List RecordView} (hvs : Within s vs)
    (on : Bool) (seq : UInt64) (out : List UInt8) :
    decryptLoop64 s A key iv4 vs on seq out =
      decryptLoop A key iv4 (vs.map (RecordView.read s)) on seq out := by
  induction vs generalizing on seq out with
  | nil => cases on <;> rfl
  | cons v vs ih =>
    have hrest := ih fun u hu => hvs u (List.mem_cons_of_mem _ hu)
    cases on with
    | false => exact hrest _ _ _
    | true =>
      have hrecord := gcmDecryptRecord64_eq A key iv4 seq (hvs v (List.mem_cons_self ..))
      rw [decryptLoop64, List.map_cons, decryptLoop, hrecord]
      congr 1
      funext o
      cases o with
      | none => rfl
      | some pt => exact hrest _ _ _

theorem decryptDir64_eq (key iv4 : List UInt8) {vs : List RecordView} (hvs : Within s vs) :
    decryptDir64 s A vs key iv4 = decryptDir A (vs.map (RecordView.read s)) key iv4 := by
  rw [decryptDir64, decryptDir, decryptLoop64_eq A key iv4 hvs]

end

theorem deriveKeyBlock64_eq (H : Hmac) (master : List UInt8) {cr sr : List UInt8}
    (hcr : cr.length = 32) (hsr : sr.length = 32) (si : SuiteInfo) :
    deriveKeyBlock64 H master cr sr si = deriveKeyBlock H master cr sr si := by
  have hserver := slice_whole sr
  have hclient := slice_whole cr
  rw [hsr] at hserver
  rw [hcr] at hclient
  rw [deriveKeyBlock64, hserver, hclient]
  rfl

/-! ### The flow -/

/-- The checks of `TlsDecryptFlow` never fail. -/
theorem tlsDecryptFlow64_eq (A : Gcm) (H : Hmac) {out inn : List UInt8} (hout : out.length < 2 ^ 63)
    (hinn : inn.length < 2 ^ 63) (keylog : TlsKeyLog) :
    tlsDecryptFlow64 A H out inn keylog = tlsDecryptFlow A H out inn keylog := by
  obtain ⟨outViews, houtViews, houtIn, houtRecs⟩ := parseRecords64_spec hout
  obtain ⟨inViews, hinViews, hinIn, hinRecs⟩ := parseRecords64_spec hinn
  obtain ⟨ch, hch, hchIn, hchBody⟩ := findHandshake64_spec hout 1 houtIn
  obtain ⟨sh, hsh, hshIn, hshBody⟩ := findHandshake64_spec hinn 2 hinIn
  unfold tlsDecryptFlow64 tlsDecryptFlow
  rw [houtViews, hinViews, houtRecs, hinRecs]
  dsimp only [Option.bind_eq_bind, Option.bind_some]
  rw [hch, hchBody]
  dsimp only [Option.bind_some]
  cases ch with
  | none => rfl
  | some ch =>
  have hchInside : ch.Inside out := hchIn ch rfl
  dsimp only [Option.map_some]
  rw [hchInside.view_length]
  by_cases hclient : ch.len < 34
  · rw [if_pos hclient, if_pos hclient]
  rw [if_neg hclient, if_neg hclient, hsh, hshBody]
  dsimp only [Option.bind_some]
  cases sh with
  | none => rfl
  | some sh =>
  have hshInside : sh.Inside inn := hshIn sh rfl
  dsimp only [Option.map_some]
  rw [hshInside.view_length]
  by_cases hserver : sh.len < 35
  · rw [if_pos hserver, if_pos hserver]
  obtain ⟨sidLen, hsid⟩ := hshInside.get?_some (show 2 + 32 < sh.len by omega)
  have hcr : slice (ch.view out) 2 32 = some (((ch.view out).drop 2).take 32) :=
    slice_of_le (by rw [hchInside.view_length]; omega)
  have hsr : slice (sh.view inn) 2 32 = some (((sh.view inn).drop 2).take 32) :=
    slice_of_le (by rw [hshInside.view_length]; omega)
  have hcrLen : (((ch.view out).drop 2).take 32).length = 32 := by
    rw [List.length_take, List.length_drop, hchInside.view_length]
    omega
  have hsrLen : (((sh.view inn).drop 2).take 32).length = 32 := by
    rw [List.length_take, List.length_drop, hshInside.view_length]
    omega
  have hsidLen : sidLen.toNat < 256 := sidLen.toNat_lt
  rw [if_neg hserver, if_neg hserver, hchInside.copy_eq, hshInside.copy_eq, hcr, hsr]
  simp only [Option.bind_some, hsid, ← Window.get?_eq]
  rw [checkedAdd_of_lt (show 2 + 32 + 1 + sidLen.toNat < 2 ^ 64 by omega), Option.bind_some,
    checkedAdd_of_lt (show 2 + 32 + 1 + sidLen.toNat + 2 < 2 ^ 64 by omega), Option.bind_some]
  by_cases hoff : 2 + 32 + 1 + sidLen.toNat + 2 > sh.len
  · rw [if_pos hoff, if_pos hoff]
  obtain ⟨c1, hc1⟩ := hshInside.get?_some (show 2 + 32 + 1 + sidLen.toNat < sh.len by omega)
  obtain ⟨c0, hc0⟩ := hshInside.get?_some (show 2 + 32 + 1 + sidLen.toNat + 1 < sh.len by omega)
  simp only [if_neg hoff, hc1, hc0, Option.bind_some]
  cases lookupSuite (UInt16.ofNat (beNat [c1, c0])) with
  | none => rfl
  | some si =>
    simp only [deriveKeyBlock64_eq H _ hcrLen hsrLen, decryptDir64_eq A _ _ houtIn,
      decryptDir64_eq A _ _ hinIn]

/-! ### Streams of any bytes -/

/-- Over the stream each function returns, and the records and messages that it returns lie in the
stream. -/
structure SafeStream (A : Gcm) (s : List UInt8) : Prop where
  records : ∃ vs, parseRecords64 s = some vs ∧ Within s vs ∧
    parseRecords s = some (vs.map (RecordView.read s))
  message : ∀ vs, Within s vs → ∀ wantType, ∃ b,
    findHandshake64 s wantType vs = some b ∧ ∀ w ∈ b, w.Inside s
  record : ∀ v : RecordView, v.payload.Inside s → ∀ key iv4 seq, iv4.length = 4 →
    ∃ o, gcmDecryptRecord64 s A key iv4 seq v = some o
  direction : ∀ vs, Within s vs → ∀ key iv4, iv4.length = 4 →
    ∃ plain, decryptDir64 s A vs key iv4 = some plain

theorem safeStream (A : Gcm) (s : ByteVector) : SafeStream A s.bytes := by
  constructor
  case records => exact parseRecords64_spec s.fits
  case message =>
    intro vs hvs wantType
    obtain ⟨b, hb, hinside, -⟩ := findHandshake64_spec s.fits wantType hvs
    exact ⟨b, hb, hinside⟩
  case record =>
    intro v hv key iv4 seq hiv
    rw [gcmDecryptRecord64_eq A key iv4 seq hv]
    exact gcmDecryptRecord_total A key hiv seq _
  case direction =>
    intro vs hvs key iv4 hiv
    rw [decryptDir64_eq A key iv4 hvs]
    exact decryptDir_total A key hiv _

/-- The keys of a block have the lengths that the decryptor copies. -/
theorem deriveKeyBlock64_lengths (H : Hmac) (master : List UInt8) {cr sr : List UInt8}
    (hcr : cr.length = 32) (hsr : sr.length = 32) (si : SuiteInfo) :
    ∃ k, deriveKeyBlock64 H master cr sr si = some k ∧ k.cKey.length = si.keyLen ∧
      k.sKey.length = si.keyLen ∧ k.cIV.length = 4 ∧ k.sIV.length = 4 := by
  rw [deriveKeyBlock64_eq H master hcr hsr, deriveKeyBlock_eq]
  exact ⟨_, rfl, rfcKeys_length H master cr sr si⟩

theorem tlsDecryptFlow64_total (A : Gcm) (H : Hmac) (out inn : ByteVector) (keylog : TlsKeyLog) :
    ∃ r, tlsDecryptFlow64 A H out.bytes inn.bytes keylog = some r ∧
      tlsDecryptFlow A H out.bytes inn.bytes keylog = some r := by
  obtain ⟨r, hr⟩ := tlsDecryptFlow_total A H out.bytes inn.bytes keylog
  exact ⟨r, by rw [tlsDecryptFlow64_eq A H out.fits inn.fits, hr], hr⟩

end NetDebugger.Tls
