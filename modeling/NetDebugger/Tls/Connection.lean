import NetDebugger.Tls.Decrypt

/-! Captured TLS 1.2 connections: each side is a hello, clear records, a ChangeCipherSpec and
records that are protected as RFC 5246 and RFC 5288 say.  `DecryptDir` gives back the plaintext of
the records of one side that were captured whole. -/

namespace NetDebugger.Tls

open Lib

/-! ### Hellos -/

structure Extension where
  type : UInt16
  data : List UInt8
deriving DecidableEq

def Extension.bytes (e : Extension) : List UInt8 :=
  beBytes 2 e.type.toNat ++ beBytes 2 e.data.length ++ e.data

/-- The extension block, which may be absent as a whole. -/
def extensionBytes : Option (List Extension) → List UInt8
  | none => []
  | some es => beBytes 2 (es.flatMap Extension.bytes).length ++ es.flatMap Extension.bytes

structure ClientHello where
  version : UInt16
  random : List UInt8
  sessionId : List UInt8
  cipherSuites : List UInt16
  compression : List UInt8
  extensions : Option (List Extension)
  random_length : random.length = 32
  sessionId_length : sessionId.length ≤ 32
  cipherSuites_length : 0 < cipherSuites.length ∧ 2 * cipherSuites.length < 2 ^ 16
  compression_length : 0 < compression.length ∧ compression.length < 2 ^ 8
  extensions_length : ∀ es ∈ extensions, (es.flatMap Extension.bytes).length < 2 ^ 16 ∧
    ∀ e ∈ es, e.data.length < 2 ^ 16

def ClientHello.body (ch : ClientHello) : List UInt8 :=
  beBytes 2 ch.version.toNat ++ (ch.random ++ (UInt8.ofNat ch.sessionId.length :: ch.sessionId ++
    beBytes 2 (2 * ch.cipherSuites.length) ++ ch.cipherSuites.flatMap (beBytes 2 ·.toNat) ++
    UInt8.ofNat ch.compression.length :: ch.compression ++ extensionBytes ch.extensions))

structure ServerHello where
  version : UInt16
  random : List UInt8
  sessionId : List UInt8
  cipherSuite : UInt16
  compression : UInt8
  extensions : Option (List Extension)
  random_length : random.length = 32
  sessionId_length : sessionId.length ≤ 32
  extensions_length : ∀ es ∈ extensions, (es.flatMap Extension.bytes).length < 2 ^ 16 ∧
    ∀ e ∈ es, e.data.length < 2 ^ 16

def ServerHello.body (sh : ServerHello) : List UInt8 :=
  beBytes 2 sh.version.toNat ++ (sh.random ++ (UInt8.ofNat sh.sessionId.length :: (sh.sessionId ++
    (beBytes 2 sh.cipherSuite.toNat ++ (sh.compression :: extensionBytes sh.extensions)))))

/-! ### Protected records -/

/-- What AES-GCM does for the keys of the supported suites. -/
structure Gcm.Lawful (A : Gcm) : Prop where
  setkey : ∀ key, key.length = 16 ∨ key.length = 32 → A.setkey key = true
  crypt_length : ∀ key nonce aad pt, (A.cryptAndTag key nonce aad pt).1.length = pt.length
  tag_length : ∀ key nonce aad pt, (A.cryptAndTag key nonce aad pt).2.length = 16
  decrypts : ∀ key nonce aad pt, A.authDecrypt key nonce aad (A.cryptAndTag key nonce aad pt).1
    (A.cryptAndTag key nonce aad pt).2 = some pt

/-- A record before it is protected. -/
structure Plain where
  type : UInt8
  explicitNonce : List UInt8
  plaintext : List UInt8
deriving DecidableEq

structure Plain.Ok (p : Plain) : Prop where
  type : p.type = 21 ∨ p.type = 22 ∨ p.type = 23
  explicitNonce : p.explicitNonce.length = 8
  plaintext : 8 + p.plaintext.length + 16 < 2 ^ 16

/-- The sequence number, the type, the version and the length of the plaintext. -/
def additionalData (seq : Nat) (type : UInt8) (ver : UInt16) (len : Nat) : List UInt8 :=
  beBytes 8 seq ++ type :: (beBytes 2 ver.toNat ++ beBytes 2 len)

section

variable (A : Gcm) (key iv : List UInt8)

/-- The nonce is the salt and the explicit part; the explicit part travels in front. -/
def Plain.protect (seq : Nat) (p : Plain) : Record :=
  let c := A.cryptAndTag key (iv ++ p.explicitNonce)
    (additionalData seq p.type 0x0303 p.plaintext.length) p.plaintext
  ⟨p.type, 0x0303, p.explicitNonce ++ (c.1 ++ c.2)⟩

/-- Records are numbered from `seq` on. -/
def protectAll : Nat → List Plain → List Record
  | _, [] => []
  | seq, p :: ps => p.protect A key iv seq :: protectAll (seq + 1) ps

end

/-- The plaintext of the records of type 23. -/
def applicationData (ps : List Plain) : List UInt8 :=
  ps.flatMap fun p => if p.type = 23 then p.plaintext else []

/-- One side of a connection but for its hello: `rest` is what follows the hello in its record. -/
structure Side where
  ver : UInt16
  rest : List UInt8
  clear : List Record
  ccs : Record
  plains : List Plain

def Side.helloRecord (x : Side) (message : Frame UInt8) : Record :=
  ⟨22, x.ver, message.whole ++ x.rest⟩

structure Side.Ok (x : Side) (message : Frame UInt8) : Prop where
  hello : (message.whole ++ x.rest).length < 2 ^ 16
  clear : ∀ r ∈ x.clear, r.type ≠ 20 ∧ r.payload.length < 2 ^ 16
  ccs : x.ccs.type = 20 ∧ x.ccs.payload.length < 2 ^ 16
  plains : ∀ p ∈ x.plains, p.Ok

def Side.records (x : Side) (message : Frame UInt8) (A : Gcm) (key iv : List UInt8) :
    List Record :=
  x.helloRecord message :: (x.clear ++ x.ccs :: protectAll A key iv 0 x.plains)

def Side.stream (x : Side) (message : Frame UInt8) (A : Gcm) (key iv : List UInt8) : List UInt8 :=
  join ((x.records message A key iv).map Record.frame)

/-- The number of records that end within the first `n` bytes. -/
def Side.capturedRecords (x : Side) (message : Frame UInt8) (A : Gcm) (key iv : List UInt8)
    (n : Nat) : Nat :=
  (Framing.captured n ((x.records message A key iv).map Record.frame)).length

/-- The protected records among them come after the hello, the clear records and the
ChangeCipherSpec. -/
def Side.capturedData (x : Side) (message : Frame UInt8) (A : Gcm) (key iv : List UInt8)
    (n : Nat) : List UInt8 :=
  applicationData (x.plains.take (x.capturedRecords message A key iv n - (x.clear.length + 2)))

/-! ### One record -/

theorem aad_eq (seq : Nat) (type : UInt8) (ver : UInt16) (len : Nat) :
    aad (UInt64.ofNat seq) type ver len = additionalData seq type ver len := by
  have hseq : (List.range 8).map (fun i =>
      (UInt64.ofNat seq >>> UInt64.ofNat (56 - 8 * i)).toUInt8) = beBytes 8 seq := by
    simp only [beBytes, leBytes, List.range, List.range.loop, List.map_cons, List.map_nil,
      List.reverse_cons, List.reverse_nil, List.nil_append, List.cons_append, List.cons.injEq,
      and_true, ← UInt8.toNat_inj]
    simp [Nat.shiftRight_eq_div_pow]
    omega
  have hver : [(ver >>> 8).toUInt8, (ver &&& 0xFF).toUInt8] = beBytes 2 ver.toNat := by
    have hlow : ver.toNat % 256 &&& 255 = ver.toNat % 256 := by
      rw [Nat.and_two_pow_sub_one_eq_mod _ 8]
      exact Nat.mod_mod _ _
    have hlt := ver.toNat_lt
    simp only [beBytes_two, List.cons.injEq, and_true, ← UInt8.toNat_inj]
    simp [Nat.shiftRight_eq_div_pow, hlow]
  have hlength : [UInt8.ofNat (len / 256), UInt8.ofNat (len % 256)] = beBytes 2 len := by
    simp only [beBytes_two, List.cons.injEq, and_true, true_and, ← UInt8.toNat_inj]
    simp
  unfold aad additionalData
  rw [hseq, ← hver, ← hlength]
  rfl

/-- A payload of a nonce, a ciphertext and a tag is opened at these. -/
theorem gcmDecryptRecord_parts (A : Gcm) (key : List UInt8) {iv nonce ct tag : List UInt8}
    (hiv : iv.length = 4) (hnonce : nonce.length = 8) (htag : tag.length = 16) (seq : UInt64)
    (type : UInt8) (ver : UInt16) :
    gcmDecryptRecord A key iv seq ⟨type, ver, nonce ++ (ct ++ tag)⟩ =
      some (A.authDecrypt key (iv ++ nonce) (aad seq type ver ct.length) ct tag) := by
  have hlen : (nonce ++ (ct ++ tag)).length = 8 + ct.length + 16 := by
    simp only [List.length_append, hnonce, htag]
    omega
  have hfirst : slice (nonce ++ (ct ++ tag)) 0 8 = some nonce := by
    have hmid := slice_mid [] nonce (ct ++ tag)
    rwa [hnonce] at hmid
  have hbody : slice (nonce ++ (ct ++ tag)) 8 ct.length = some ct := by
    have hmid := slice_mid nonce ct tag
    rwa [hnonce] at hmid
  have hlast : slice (nonce ++ (ct ++ tag)) (8 + ct.length) 16 = some tag := by
    have hmid := slice_mid (nonce ++ ct) tag []
    rwa [List.append_nil, List.length_append, hnonce, htag, List.append_assoc] at hmid
  have hsalt : slice iv 0 4 = some iv := by
    have hmid := slice_mid [] iv []
    rwa [List.append_nil, hiv] at hmid
  unfold gcmDecryptRecord
  simp only [hlen]
  rw [if_neg (by omega), Nat.add_sub_cancel,
    show 8 + ct.length + 16 - 8 - 16 = ct.length by omega, hfirst, hbody, hlast, hsalt]
  rfl

theorem gcmDecryptRecord_protect {A : Gcm} (hA : A.Lawful) (key : List UInt8) {iv : List UInt8}
    (hiv : iv.length = 4) (seq : Nat) {p : Plain} (hp : p.Ok) :
    gcmDecryptRecord A key iv (UInt64.ofNat seq) (p.protect A key iv seq) =
      some (some p.plaintext) := by
  unfold Plain.protect
  rw [gcmDecryptRecord_parts A key hiv hp.explicitNonce (hA.tag_length ..), hA.crypt_length,
    aad_eq, hA.decrypts]

/-! ### One side -/

section

variable {A : Gcm} (key : List UInt8) {iv : List UInt8}

theorem applicationData_cons (p : Plain) (ps : List Plain) :
    applicationData (p :: ps) = (if p.type = 23 then p.plaintext else []) ++ applicationData ps :=
  rfl

theorem protectAll_take (A : Gcm) (iv : List UInt8) (seq k : Nat) (ps : List Plain) :
    (protectAll A key iv seq ps).take k = protectAll A key iv seq (ps.take k) := by
  induction ps generalizing seq k with
  | nil => simp [protectAll]
  | cons p ps ih =>
    cases k with
    | zero => rfl
    | succ k => rw [protectAll, List.take_succ_cons, List.take_succ_cons, ih, protectAll]

/-- Behind the ChangeCipherSpec every record decrypts under the next sequence number. -/
theorem decryptLoop_protectAll (hA : A.Lawful) (hiv : iv.length = 4) (seq : Nat)
    {ps : List Plain} (hps : ∀ p ∈ ps, p.Ok) (out : List UInt8) :
    decryptLoop A key iv (protectAll A key iv seq ps) true (UInt64.ofNat seq) out =
      some (out ++ applicationData ps) := by
  induction ps generalizing seq out with
  | nil => simp [protectAll, decryptLoop, applicationData]
  | cons p ps ih =>
    have hnext : UInt64.ofNat seq + 1 = UInt64.ofNat (seq + 1) := (UInt64.ofNat_add seq 1).symm
    have hrest := fun out => ih (seq + 1) (fun q hq => hps q (List.mem_cons_of_mem _ hq)) out
    unfold protectAll decryptLoop
    rw [gcmDecryptRecord_protect hA key hiv seq (hps p (List.mem_cons_self ..))]
    simp only [Option.bind_eq_bind, Option.bind_some, hnext]
    rw [hrest, applicationData_cons]
    by_cases htype : p.type = 23
    · simp [Plain.protect, htype]
    · simp [Plain.protect, htype]

/-- Clear records are passed over. -/
theorem decryptLoop_clear {rs : List Record} (hrs : ∀ r ∈ rs, r.type ≠ 20) (ss : List Record) :
    decryptLoop A key iv (rs ++ ss) false 0 [] = decryptLoop A key iv ss false 0 [] := by
  induction rs with
  | nil => rfl
  | cons r rs ih =>
    have hr := hrs r (List.mem_cons_self ..)
    rw [List.cons_append, decryptLoop, decide_eq_false hr,
      ih fun q hq => hrs q (List.mem_cons_of_mem _ hq)]

/-- What `DecryptDir` returns for the first `k` records of a side. -/
theorem decryptDir_take (hA : A.Lawful) (hkey : key.length = 16 ∨ key.length = 32)
    (hiv : iv.length = 4) {x : Side} {message : Frame UInt8} (hx : x.Ok message) (k : Nat) :
    decryptDir A ((x.records message A key iv).take k) key iv =
      some (applicationData (x.plains.take (k - (x.clear.length + 2)))) := by
  have hhello : ∀ r ∈ x.helloRecord message :: x.clear, r.type ≠ 20 := by
    intro r hr
    rcases List.mem_cons.mp hr with rfl | hr
    · show (22 : UInt8) ≠ 20
      decide
    · exact (hx.clear r hr).1
  have hrecords : x.records message A key iv =
      (x.helloRecord message :: x.clear) ++ x.ccs :: protectAll A key iv 0 x.plains := rfl
  unfold decryptDir
  rw [hA.setkey key hkey, hrecords]
  simp only [Bool.not_true, Bool.false_eq_true, if_false]
  by_cases hk : k ≤ x.clear.length + 1
  · -- the cut is in front of the ChangeCipherSpec
    rw [List.take_append_of_le_length (by simpa using hk),
      ← List.append_nil (List.take k _),
      decryptLoop_clear key fun r hr => hhello r (List.mem_of_mem_take hr),
      show k - (x.clear.length + 2) = 0 by omega]
    rfl
  · obtain ⟨j, rfl⟩ : ∃ j, k = (x.clear.length + 1) + (j + 1) := ⟨k - x.clear.length - 2, by omega⟩
    rw [show x.clear.length + 1 + (j + 1) - (x.clear.length + 2) = j by omega,
      show x.clear.length + 1 = (x.helloRecord message :: x.clear).length from rfl,
      List.take_length_add_append, List.take_succ_cons, decryptLoop_clear key hhello, decryptLoop,
      decide_eq_true hx.ccs.1, protectAll_take]
    exact decryptLoop_protectAll key hA hiv 0 (fun p hp => hx.plains p (List.mem_of_mem_take hp)) []

theorem protectAll_payload (hA : A.Lawful) (seq : Nat) {ps : List Plain}
    (hps : ∀ p ∈ ps, p.Ok) : ∀ r ∈ protectAll A key iv seq ps, r.payload.length < 2 ^ 16 := by
  induction ps generalizing seq with
  | nil => simp [protectAll]
  | cons p ps ih =>
    have hp := hps p (List.mem_cons_self ..)
    have hroom := hp.plaintext
    intro r hr
    rcases List.mem_cons.mp hr with rfl | hr
    · simp only [Plain.protect, List.length_append, hp.explicitNonce, hA.crypt_length,
        hA.tag_length]
      omega
    · exact ih (seq + 1) (fun q hq => hps q (List.mem_cons_of_mem _ hq)) r hr

theorem Side.Ok.payload (hA : A.Lawful) {x : Side} {message : Frame UInt8}
    (hx : x.Ok message) : ∀ r ∈ x.records message A key iv, r.payload.length < 2 ^ 16 := by
  intro r hr
  rcases List.mem_cons.mp hr with rfl | hr
  · exact hx.hello
  rcases List.mem_append.mp hr with hr | hr
  · exact (hx.clear r hr).2
  rcases List.mem_cons.mp hr with rfl | hr
  · exact hx.ccs.2
  · exact protectAll_payload key hA 0 hx.plains r hr

/-- `ParseRecords` finds the records that were captured whole. -/
theorem parseRecords_stream (hA : A.Lawful) {x : Side} {message : Frame UInt8} (hx : x.Ok message) (n : Nat) :
    parseRecords ((x.stream message A key iv).take n) =
      some ((x.records message A key iv).take (x.capturedRecords message A key iv n)) := by
  have hpayload := @Side.Ok.payload A key iv hA _ _ hx
  have hfits : ∀ f ∈ (x.records message A key iv).map Record.frame, recordFraming.Fits f := by
    intro f hf
    obtain ⟨r, hr, rfl⟩ := List.mem_map.mp hf
    exact Record.frame_fits (hpayload r hr)
  have hsplits := Framing.splits_take hfits n
  rw [Framing.captured_take, ← List.map_take] at hsplits
  exact parseRecords_splits hsplits fun r hr => hpayload r (List.mem_of_mem_take hr)

/-- The hello is found once its record was captured. -/
theorem findHandshake_records {x : Side} {type : UInt8} {body : List UInt8}
    (hx : x.Ok (messageFrame type body)) {k : Nat} (hk : 0 < k) :
    findHandshake type ((x.records (messageFrame type body) A key iv).take k) =
      some (some body) := by
  obtain ⟨k, rfl⟩ := Nat.exists_eq_succ_of_ne_zero (Nat.ne_of_gt hk)
  have hbody : body.length < 2 ^ 24 := by
    have hhello := hx.hello
    simp only [Frame.whole, messageFrame, List.length_append, List.length_cons] at hhello
    omega
  unfold Side.records
  rw [List.take_succ_cons, findHandshake]
  simp only [Side.helloRecord, ne_eq, not_true_eq_false, if_false]
  rw [findInRecord_first type hbody]
  rfl

theorem capturedRecords_pos {x : Side} {message : Frame UInt8} {n : Nat}
    (hn : (x.helloRecord message).frame.whole.length ≤ n) :
    0 < x.capturedRecords message A key iv n := by
  unfold Side.capturedRecords Side.records
  rw [List.map_cons, Framing.captured, if_pos hn, List.length_cons]
  exact Nat.succ_pos _

end

end NetDebugger.Tls
