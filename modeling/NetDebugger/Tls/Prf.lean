import NetDebugger.Lib.Frames
import NetDebugger.Lib.Text
import NetDebugger.Protocol

/-! The key derivation of `tls_decrypt.cpp`.  HMAC is a library's, and a parameter: what is used of
it is the length of its output. -/

namespace NetDebugger.Tls

open Lib

/-- The hashes of `mbedtls_md_type_t` that are used. -/
inductive Md
  | sha256
  | sha384
deriving DecidableEq

/-- `mbedtls_md_get_size`. -/
def Md.size : Md → Nat
  | .sha256 => 32
  | .sha384 => 48

/-- `mbedtls_md_hmac`. -/
structure Hmac where
  mac : Md → List UInt8 → List UInt8 → List UInt8
  length : ∀ md key data, (mac md key data).length = md.size

/-- The loop of `Phash`, where `a` is A(i). -/
def phashLoop (mac : List UInt8 → List UInt8) (seed : List UInt8) (outLen : Nat) :
    Nat → List UInt8 → List UInt8 → Option (List UInt8)
  | 0, _, _ => none
  | fuel + 1, a, out =>
    if out.length < outLen then phashLoop mac seed outLen fuel (mac a) (out ++ mac (a ++ seed))
    else some out

/-- `Phash`. `mac` is HMAC under the secret. -/
def phash (mac : List UInt8 → List UInt8) (seed : List UInt8) (outLen : Nat) :
    Option (List UInt8) :=
  (phashLoop mac seed outLen (outLen + 1) (mac seed) []).map (fixedArray 0 outLen)

def prf12 (H : Hmac) (secret label seed : List UInt8) (outLen : Nat) (md : Md) :
    Option (List UInt8) :=
  phash (H.mac md secret) (label ++ seed) outLen

structure SuiteInfo where
  keyLen : Nat
  prf : Md
  gcm : Bool
  tls13 : Bool
deriving DecidableEq

def lookupSuite (cs : UInt16) : Option SuiteInfo :=
  if cs = 0xC02F ∨ cs = 0xC02B ∨ cs = 0x009C then some ⟨16, .sha256, true, false⟩
  else if cs = 0xC030 ∨ cs = 0xC02C ∨ cs = 0x009D then some ⟨32, .sha384, true, false⟩
  else if cs = 0x1301 then some ⟨16, .sha256, true, true⟩
  else if cs = 0x1302 then some ⟨32, .sha384, true, true⟩
  else if cs = 0x1303 then some ⟨32, .sha256, false, true⟩
  else none

structure DirKeys where
  cKey : List UInt8
  sKey : List UInt8
  cIV : List UInt8
  sIV : List UInt8
deriving DecidableEq

def deriveKeyBlock (H : Hmac) (master cr sr : List UInt8) (si : SuiteInfo) : Option DirKeys := do
  let kb ← prf12 H master (text "key expansion") (sr ++ cr) (2 * si.keyLen + 8) si.prf
  let cKey ← slice kb 0 si.keyLen
  let sKey ← slice kb si.keyLen si.keyLen
  let cIV ← slice kb (si.keyLen + si.keyLen) 4
  let sIV ← slice kb (si.keyLen + si.keyLen + 4) 4
  some ⟨cKey, sKey, cIV, sIV⟩

/-! ### The key block of RFC 5246 -/

/-- A(i). -/
def chain (mac : List UInt8 → List UInt8) (seed : List UInt8) : Nat → List UInt8
  | 0 => seed
  | i + 1 => mac (chain mac seed i)

/-- The first `n` blocks of P_hash. -/
def pHash (mac : List UInt8 → List UInt8) (seed : List UInt8) (n : Nat) : List UInt8 :=
  (List.range n).flatMap fun i => mac (chain mac seed (i + 1) ++ seed)

/-- The key block, from as many blocks as bytes are needed. -/
def keyBlock (H : Hmac) (master cr sr : List UInt8) (si : SuiteInfo) : List UInt8 :=
  (pHash (H.mac si.prf master) (text "key expansion" ++ (sr ++ cr)) (2 * si.keyLen + 8)).take
    (2 * si.keyLen + 8)

/-- The partition of the key block for a cipher that has no MAC keys and a salt of four bytes. -/
def rfcKeys (H : Hmac) (master cr sr : List UInt8) (si : SuiteInfo) : DirKeys :=
  let kb := keyBlock H master cr sr si
  { cKey := kb.take si.keyLen
    sKey := (kb.drop si.keyLen).take si.keyLen
    cIV := (kb.drop (2 * si.keyLen)).take 4
    sIV := (kb.drop (2 * si.keyLen + 4)).take 4 }

theorem pHash_succ (mac : List UInt8 → List UInt8) (seed : List UInt8) (n : Nat) :
    pHash mac seed (n + 1) = pHash mac seed n ++ mac (chain mac seed (n + 1) ++ seed) := by
  simp [pHash, List.range_succ]

theorem pHash_add (mac : List UInt8 → List UInt8) (seed : List UInt8) (m n : Nat) :
    ∃ rest, pHash mac seed (m + n) = pHash mac seed m ++ rest := by
  induction n with
  | zero => exact ⟨[], by simp⟩
  | succ n ih =>
    obtain ⟨rest, hrest⟩ := ih
    exact ⟨_, by rw [← Nat.add_assoc, pHash_succ, hrest, List.append_assoc]⟩

theorem pHash_length {mac : List UInt8 → List UInt8} {hlen : Nat}
    (hmac : ∀ xs, (mac xs).length = hlen) (seed : List UInt8) (n : Nat) :
    (pHash mac seed n).length = n * hlen := by
  induction n with
  | zero => simp [pHash]
  | succ n ih => rw [pHash_succ, List.length_append, ih, hmac, Nat.succ_mul]

/-- The loop stops after the first block that reaches the length asked for. -/
theorem phashLoop_spec {mac : List UInt8 → List UInt8} {hlen : Nat} (hpos : 0 < hlen)
    (hmac : ∀ xs, (mac xs).length = hlen) (seed : List UInt8) {outLen fuel n : Nat}
    (hn : n ≤ outLen) (hfuel : fuel + n = outLen + 1) :
    ∃ m, m ≤ outLen ∧ outLen ≤ m * hlen ∧
      phashLoop mac seed outLen fuel (chain mac seed (n + 1)) (pHash mac seed n) =
        some (pHash mac seed m) := by
  induction fuel generalizing n with
  | zero => omega
  | succ fuel ih =>
    unfold phashLoop
    rw [pHash_length hmac]
    by_cases hshort : n * hlen < outLen
    · have hle : n ≤ n * hlen := Nat.le_mul_of_pos_right n hpos
      rw [if_pos hshort, ← pHash_succ]
      exact ih (by omega) (by omega)
    · rw [if_neg hshort]
      exact ⟨n, hn, Nat.le_of_not_lt hshort, rfl⟩

/-- `Phash` is the beginning of P_hash. -/
theorem phash_eq {mac : List UInt8 → List UInt8} {hlen : Nat} (hpos : 0 < hlen)
    (hmac : ∀ xs, (mac xs).length = hlen) (seed : List UInt8) (outLen : Nat) :
    phash mac seed outLen = some ((pHash mac seed outLen).take outLen) := by
  obtain ⟨m, hm, hlen, hloop⟩ :=
    @phashLoop_spec mac _ hpos hmac seed outLen (outLen + 1) 0 (Nat.zero_le _) rfl
  unfold phash
  have hstart : phashLoop mac seed outLen (outLen + 1) (mac seed) [] = some (pHash mac seed m) :=
    hloop
  rw [hstart, Option.map_some, fixedArray, pHash_length hmac, Nat.sub_eq_zero_of_le hlen,
    List.replicate_zero, List.append_nil]
  obtain ⟨rest, hrest⟩ := pHash_add mac seed m (outLen - m)
  rw [Nat.add_sub_cancel' hm] at hrest
  rw [hrest, List.take_append_of_le_length (by rw [pHash_length hmac]; exact hlen)]

theorem Md.size_pos (md : Md) : 0 < md.size := by
  cases md <;> decide

@[simp] theorem keyBlock_length (H : Hmac) (master cr sr : List UInt8) (si : SuiteInfo) :
    (keyBlock H master cr sr si).length = 2 * si.keyLen + 8 := by
  rw [keyBlock, List.length_take, pHash_length (H.length si.prf master)]
  exact Nat.min_eq_left (Nat.le_mul_of_pos_right _ si.prf.size_pos)

/-- `DeriveKeyBlock` returns the keys of the RFC, and reads inside the key block. -/
theorem deriveKeyBlock_eq (H : Hmac) (master cr sr : List UInt8) (si : SuiteInfo) :
    deriveKeyBlock H master cr sr si = some (rfcKeys H master cr sr si) := by
  have hkb : prf12 H master (text "key expansion") (sr ++ cr) (2 * si.keyLen + 8) si.prf =
      some (keyBlock H master cr sr si) := phash_eq si.prf.size_pos (H.length si.prf master) _ _
  have hlen := keyBlock_length H master cr sr si
  unfold deriveKeyBlock
  rw [hkb]
  simp only [Option.bind_eq_bind, Option.bind_some]
  rw [slice_of_le (by omega), slice_of_le (by omega), slice_of_le (by omega),
    slice_of_le (by omega)]
  simp only [Option.bind_some, List.drop_zero, rfcKeys, Nat.two_mul]

theorem rfcKeys_length (H : Hmac) (master cr sr : List UInt8) (si : SuiteInfo) :
    (rfcKeys H master cr sr si).cKey.length = si.keyLen ∧
      (rfcKeys H master cr sr si).sKey.length = si.keyLen ∧
      (rfcKeys H master cr sr si).cIV.length = 4 ∧
      (rfcKeys H master cr sr si).sIV.length = 4 := by
  simp only [rfcKeys, List.length_take, List.length_drop, keyBlock_length]
  omega

/-! ### Any HMAC

The derivation needs no more of HMAC than that its outputs have one length. -/

/-- `Prf12` over a given HMAC. -/
def prf12Of (mac : List UInt8 → List UInt8 → List UInt8) (secret label seed : List UInt8)
    (outLen : Nat) : Option (List UInt8) := phash (mac secret) (label ++ seed) outLen

/-- `DeriveKeyBlock` over a given HMAC. -/
def deriveKeyBlockOf (mac : List UInt8 → List UInt8 → List UInt8) (master cr sr : List UInt8)
    (si : SuiteInfo) : Option DirKeys := do
  let kb ← prf12Of mac master (text "key expansion") (sr ++ cr) (2 * si.keyLen + 8)
  let cKey ← slice kb 0 si.keyLen
  let sKey ← slice kb si.keyLen si.keyLen
  let cIV ← slice kb (si.keyLen + si.keyLen) 4
  let sIV ← slice kb (si.keyLen + si.keyLen + 4) 4
  some ⟨cKey, sKey, cIV, sIV⟩

/-- The keys cut a block into pieces that follow each other. -/
structure DirKeys.Cut (k : DirKeys) (keyLen : Nat) (kb : List UInt8) : Prop where
  block : k.cKey ++ k.sKey ++ k.cIV ++ k.sIV = kb
  cKey : k.cKey.length = keyLen
  sKey : k.sKey.length = keyLen
  cIV : k.cIV.length = 4
  sIV : k.sIV.length = 4

section

variable {mac : List UInt8 → List UInt8 → List UInt8} {hlen : Nat}

/-- Enough blocks of P_hash begin with the same bytes. -/
theorem pHash_take (hmac : ∀ key data, (mac key data).length = hlen) (secret seed : List UInt8)
    {outLen m n : Nat} (hm : outLen ≤ m * hlen) (hn : outLen ≤ n * hlen) :
    (pHash (mac secret) seed m).take outLen = (pHash (mac secret) seed n).take outLen := by
  have hgrow : ∀ {k l : Nat}, outLen ≤ k * hlen → k ≤ l →
      (pHash (mac secret) seed l).take outLen = (pHash (mac secret) seed k).take outLen := by
    intro k l hk hkl
    obtain ⟨rest, hrest⟩ := pHash_add (mac secret) seed k (l - k)
    rw [Nat.add_sub_cancel' hkl] at hrest
    rw [hrest, List.take_append_of_le_length (by rw [pHash_length (hmac secret)]; exact hk)]
  rcases Nat.le_total m n with hmn | hnm
  · exact (hgrow hm hmn).symm
  · exact hgrow hn hnm

theorem prf12Of_eq (hpos : 1 ≤ hlen) (hmac : ∀ key data, (mac key data).length = hlen)
    (secret label seed : List UInt8) {outLen n : Nat} (hn : outLen ≤ n * hlen) :
    prf12Of mac secret label seed outLen =
      some ((pHash (mac secret) (label ++ seed) n).take outLen) := by
  rw [prf12Of, phash_eq hpos (hmac secret),
    pHash_take hmac secret _ (Nat.le_mul_of_pos_right outLen hpos) hn]

theorem prf12Of_take (hpos : 1 ≤ hlen) (hmac : ∀ key data, (mac key data).length = hlen)
    (secret label seed : List UInt8) {shorter outLen : Nat} (h : shorter ≤ outLen)
    {out : List UInt8} (hout : prf12Of mac secret label seed outLen = some out) :
    prf12Of mac secret label seed shorter = some (out.take shorter) := by
  have hn : outLen ≤ outLen * hlen := Nat.le_mul_of_pos_right outLen hpos
  rw [prf12Of_eq hpos hmac secret label seed hn] at hout
  obtain rfl := Option.some.inj hout
  rw [prf12Of_eq hpos hmac secret label seed (Nat.le_trans h hn), List.take_take,
    Nat.min_eq_left h]

/-- Four consecutive pieces make up a block of their length. -/
theorem cut_of_length {kb : List UInt8} {keyLen : Nat} (h : kb.length = 2 * keyLen + 8) :
    DirKeys.Cut ⟨kb.take keyLen, (kb.drop keyLen).take keyLen, (kb.drop (keyLen + keyLen)).take 4,
      (kb.drop (keyLen + keyLen + 4)).take 4⟩ keyLen kb := by
  constructor
  case block =>
    have hlast : (kb.drop (keyLen + keyLen + 4)).take 4 = kb.drop (keyLen + keyLen + 4) :=
      List.take_of_length_le (by rw [List.length_drop]; omega)
    have hpiece : ∀ i n, (kb.drop i).take n ++ kb.drop (i + n) = kb.drop i := by
      intro i n
      rw [← List.drop_drop, List.take_append_drop]
    simp only [hlast, List.append_assoc]
    rw [hpiece, hpiece, List.take_append_drop]
  all_goals
    simp only [List.length_take, List.length_drop, h]
    omega

theorem deriveKeyBlockOf_cut (hpos : 1 ≤ hlen) (hmac : ∀ key data, (mac key data).length = hlen)
    (master cr sr : List UInt8) (si : SuiteInfo) : ∃ kb k,
    prf12Of mac master (text "key expansion") (sr ++ cr) (2 * si.keyLen + 8) = some kb ∧
      deriveKeyBlockOf mac master cr sr si = some k ∧ k.Cut si.keyLen kb := by
  have hn : 2 * si.keyLen + 8 ≤ (2 * si.keyLen + 8) * hlen := Nat.le_mul_of_pos_right _ hpos
  have hkb := prf12Of_eq hpos hmac master (text "key expansion") (sr ++ cr) hn
  have hlen : ((pHash (mac master) (text "key expansion" ++ (sr ++ cr)) (2 * si.keyLen + 8)).take
      (2 * si.keyLen + 8)).length = 2 * si.keyLen + 8 := by
    rw [List.length_take, pHash_length (hmac master)]
    exact Nat.min_eq_left hn
  refine ⟨_, _, hkb, ?_, cut_of_length hlen⟩
  unfold deriveKeyBlockOf
  rw [hkb]
  simp only [Option.bind_eq_bind, Option.bind_some]
  rw [slice_of_le (by omega), slice_of_le (by omega), slice_of_le (by omega),
    slice_of_le (by omega)]
  simp only [Option.bind_some, List.drop_zero]

/-- `Prf12` is the PRF of RFC 5246 for every HMAC: the loop ends, and the result is the beginning
of P_hash. `DeriveKeyBlock` cuts the key block into the four keys. -/
theorem prf12_rfc (hpos : 1 ≤ hlen) (hmac : ∀ key data, (mac key data).length = hlen) :
    (∀ (secret label seed : List UInt8) (outLen : Nat), ∃ out,
      prf12Of mac secret label seed outLen = some out ∧ out.length = outLen ∧
      (∀ n, outLen ≤ n * hlen → out = (pHash (mac secret) (label ++ seed) n).take outLen) ∧
      ∀ shorter ≤ outLen, prf12Of mac secret label seed shorter = some (out.take shorter)) ∧
    (∀ (master cr sr : List UInt8) (si : SuiteInfo), ∃ kb k,
      prf12Of mac master (text "key expansion") (sr ++ cr) (2 * si.keyLen + 8) = some kb ∧
      deriveKeyBlockOf mac master cr sr si = some k ∧ k.Cut si.keyLen kb) ∧
    ∀ (H : Hmac) (md : Md) (si : SuiteInfo) (secret label seed cr sr : List UInt8) (outLen : Nat),
      prf12 H secret label seed outLen md = prf12Of (H.mac md) secret label seed outLen ∧
      deriveKeyBlock H secret cr sr si = deriveKeyBlockOf (H.mac si.prf) secret cr sr si := by
  refine ⟨fun secret label seed outLen => ?_, deriveKeyBlockOf_cut hpos hmac,
    fun _ _ _ _ _ _ _ _ _ => ⟨rfl, rfl⟩⟩
  have hn : outLen ≤ outLen * hlen := Nat.le_mul_of_pos_right outLen hpos
  have hout := prf12Of_eq hpos hmac secret label seed hn
  refine ⟨_, hout, ?_, fun n h => pHash_take hmac secret _ hn h,
    fun shorter h => prf12Of_take hpos hmac secret label seed h hout⟩
  rw [List.length_take, pHash_length (hmac secret)]
  exact Nat.min_eq_left hn

end

/-- A MAC of three bytes, and five bytes of its PRF. -/
def shortMac (key data : List UInt8) : List UInt8 :=
  [UInt8.ofNat key.length, UInt8.ofNat data.length, data.headD 0]

theorem prf12_rfc_short : ∃ out, prf12Of shortMac [1] [2] [3] 5 = some out ∧
    out = ((shortMac [1] (shortMac [1] [2, 3] ++ [2, 3])) ++
      shortMac [1] (shortMac [1] (shortMac [1] [2, 3]) ++ [2, 3])).take 5 := by
  obtain ⟨out, hout, -, hblocks, -⟩ :=
    (@prf12_rfc shortMac 3 (by decide) (fun _ _ => rfl)).1 [1] [2] [3] 5
  exact ⟨out, hout, hblocks 2 (by decide)⟩

end NetDebugger.Tls
