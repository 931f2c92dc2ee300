import Mathlib.Data.List.AList
import Mathlib.Data.List.DropRight
import NetDebugger.Lib.Lines
import NetDebugger.Lib.Runs
import NetDebugger.Tls.Refragmented

/-! The keylog: `TlsKeyLog` of `tls_decrypt.cpp`, which reads it line by line, and
`CaptureMasterKey` of `knd_sslkeys.cpp`, which writes it. -/

namespace NetDebugger.Tls

open Lib

/-- `map_`. -/
abbrev KeyMap := AList fun _ : List UInt8 => List UInt8

def KeyMap.size (m : KeyMap) : Nat := m.keys.length

def KeyMap.keyLog (m : KeyMap) : TlsKeyLog := ⟨fun digits => m.lookup digits⟩

def KeyMap.masterSecret (m : KeyMap) (clientRandom : List UInt8) : List UInt8 :=
  (KeyMap.keyLog m).masterSecret clientRandom

def nib (c : UInt8) : Option Nat :=
  if 0x30 ≤ c ∧ c ≤ 0x39 then some (c.toNat - 0x30)
  else if 0x61 ≤ c ∧ c ≤ 0x66 then some (c.toNat - 0x61 + 10)
  else if 0x41 ≤ c ∧ c ≤ 0x46 then some (c.toNat - 0x41 + 10)
  else none

/-- `HexToBytes`, which stops at the first pair that is not of digits. -/
def hexToBytes : List UInt8 → List UInt8
  | h :: l :: rest =>
    match nib h, nib l with
    | some hi, some lo => UInt8.ofNat (hi * 16 + lo) :: hexToBytes rest
    | _, _ => []
  | _ => []

def lower (c : UInt8) : UInt8 := if 0x41 ≤ c ∧ c ≤ 0x46 then c - 0x41 + 0x61 else c

def blank (c : UInt8) : Bool := c = 0x0D ∨ c = 0x0A ∨ c = 0x20

def keyLabel : List UInt8 := text "CLIENT_RANDOM "

/-- The key and the secret that `addLine` stores. -/
def lineEntry (line : List UInt8) : Option (List UInt8 × List UInt8) :=
  if line.take 14 ≠ keyLabel then none
  else
    let cr := (line.drop 14).takeWhile (· ≠ 0x20)
    match (line.drop 14).dropWhile (· ≠ 0x20) with
    | [] => none
    | _ :: ms =>
      if cr.length ≠ 64 then none else some (cr.map lower, hexToBytes (ms.rdropWhile blank))

def KeyMap.addLine (m : KeyMap) (line : List UInt8) : KeyMap :=
  match lineEntry line with
  | none => m
  | some (key, secret) => m.insert key secret

def KeyMap.addLines (m : KeyMap) (lines : List (List UInt8)) : KeyMap :=
  lines.foldl KeyMap.addLine m

/-- The lines that `fgets` reads into a buffer of 1024 bytes. -/
def fgetsLoop (fuel : Nat) (s : List UInt8) : List (List UInt8) := readLines 1023 0x0A fuel s

/-- `loadFile` of a file that can be read. -/
def KeyMap.loadFile (m : KeyMap) (contents : List UInt8) : KeyMap :=
  KeyMap.addLines m ((fgetsLoop contents.length contents).map cString)

/-! ### The writer -/

/-- A buffer of `NCryptBufferDesc`; `none` is a null pointer. -/
structure NCryptBuffer where
  bufferType : UInt32
  pvBuffer : Option (List UInt8)

def ncryptbufferSslClientRandom : UInt32 := 20

/-- A line of the keylog. -/
def captureLine (clientRandom secret : List UInt8) : List UInt8 :=
  snprintf 256 (text "CLIENT_RANDOM " ++ bytesToHex clientRandom ++ text " " ++ bytesToHex secret ++
    text "\n")

/-- The loop of `CaptureMasterKey` over the buffers. -/
def clientRandOf (params : Option (List NCryptBuffer)) : Option (List UInt8) :=
  (params.getD []).foldl (fun r b =>
    if b.bufferType = ncryptbufferSslClientRandom then b.pvBuffer else r) none

/-- The line that `CaptureMasterKey` writes for the key object at `key`. -/
def captureMasterKey (key : Nat → UInt8) (params : Option (List NCryptBuffer)) :
    Option (List UInt8) :=
  match clientRandOf params with
  | none => none
  | some cr => if 32 ≤ cr.length then some (captureLine (cr.take 32) (readBytes key 0x1c 48)) else none

/-! ### Well-formed lines -/

/-- The bytes that hex digits of either case spell. -/
def unhex : List UInt8 → Option (List UInt8)
  | [] => some []
  | [_] => none
  | h :: l :: rest => do
    let hi ← nib h
    let lo ← nib l
    let bs ← unhex rest
    some (UInt8.ofNat (hi * 16 + lo) :: bs)

/-- A line `CLIENT_RANDOM <64 hex digits> <96 hex digits>` with blanks behind it. -/
inductive KeyLine : List UInt8 → List UInt8 → List UInt8 → Prop
  | mk {digits digits' tail clientRandom secret : List UInt8} :
      unhex digits = some clientRandom → clientRandom.length = 32 →
      unhex digits' = some secret → secret.length = 48 → (∀ c ∈ tail, blank c = true) →
      KeyLine (keyLabel ++ digits ++ 0x20 :: (digits' ++ tail)) clientRandom secret

/-- The client random and the secret of a well-formed line. -/
def keyLine (line : List UInt8) : Option (List UInt8 × List UInt8) :=
  let rest := line.drop 14
  if line.take 14 = keyLabel ∧ rest[64]? = some 0x20 ∧ ∀ c ∈ rest.drop 161, blank c = true then do
    let clientRandom ← unhex (rest.take 64)
    let secret ← unhex ((rest.drop 65).take 96)
    if clientRandom.length = 32 ∧ secret.length = 48 then some (clientRandom, secret) else none
  else none

/-- The secret of the last well-formed line for the client random, empty where there is none. -/
def secretOf (lines : List (List UInt8)) (clientRandom : List UInt8) : List UInt8 :=
  lines.foldl (fun answer line => match keyLine line with
    | some (cr, secret) => if cr = clientRandom then secret else answer
    | none => answer) []

/-! ### Digits -/

theorem unhex_length {digits bs : List UInt8} (h : unhex digits = some bs) :
    digits.length = 2 * bs.length := by
  fun_induction unhex digits generalizing bs with
  | case1 =>
    obtain rfl := Option.some.inj h
    rfl
  | case2 => cases h
  | case3 d e rest ih =>
    obtain ⟨hi, -, h⟩ := Option.bind_eq_some_iff.mp h
    obtain ⟨lo, -, h⟩ := Option.bind_eq_some_iff.mp h
    obtain ⟨bs', hrest, h⟩ := Option.bind_eq_some_iff.mp h
    obtain rfl := Option.some.inj h
    rw [List.length_cons, List.length_cons, List.length_cons, ih hrest]
    omega

/-- What a digit is: no blank, and one of `%x` in lower case. -/
theorem nib_digit {c : UInt8} {v : Nat} (h : nib c = some v) :
    v < 16 ∧ blank c = false ∧ hex v = [lower c] := by
  have hall : ∀ n < 256, ∀ v ∈ nib (UInt8.ofNat n), v < 16 ∧ blank (UInt8.ofNat n) = false ∧
      hex v = [lower (UInt8.ofNat n)] := by decide +kernel
  have hc := hall c.toNat c.toNat_lt v
  rw [UInt8.ofNat_toNat] at hc
  exact hc h

theorem unhex_digits {digits bs : List UInt8} (h : unhex digits = some bs) :
    (∀ c ∈ digits, blank c = false) ∧ digits.map lower = bytesToHex bs ∧ hexToBytes digits = bs := by
  fun_induction unhex digits generalizing bs with
  | case1 =>
    obtain rfl := Option.some.inj h
    exact ⟨nofun, rfl, rfl⟩
  | case2 => cases h
  | case3 d e rest ih =>
    obtain ⟨hi, hd, h⟩ := Option.bind_eq_some_iff.mp h
    obtain ⟨lo, he, h⟩ := Option.bind_eq_some_iff.mp h
    obtain ⟨bs', hrest, h⟩ := Option.bind_eq_some_iff.mp h
    obtain rfl := Option.some.inj h
    obtain ⟨hblank, hlower, hbytes⟩ := ih hrest
    obtain ⟨hhi, hdblank, hdhex⟩ := nib_digit hd
    obtain ⟨hlo, heblank, hehex⟩ := nib_digit he
    refine ⟨List.forall_mem_cons.mpr ⟨hdblank, List.forall_mem_cons.mpr ⟨heblank, hblank⟩⟩, ?_, ?_⟩
    · have hbyte : (UInt8.ofNat (hi * 16 + lo)).toNat = hi * 16 + lo := by
        rw [UInt8.toNat_ofNat']
        omega
      rw [bytesToHex, List.flatMap_cons, hbyte, show (hi * 16 + lo) / 16 = hi by omega,
        show (hi * 16 + lo) % 16 = lo by omega, hdhex, hehex, List.map_cons, List.map_cons, hlower]
      rfl
    · rw [hexToBytes, hd, he, hbytes]

theorem unhex_bytesToHex (bs : List UInt8) : unhex (bytesToHex bs) = some bs := by
  have hdigit : ∀ n < 16, hex n = [(hex n).headD 0] ∧ nib ((hex n).headD 0) = some n := by decide
  induction bs with
  | nil => rfl
  | cons b bs ih =>
    have hb := b.toNat_lt
    obtain ⟨hhigh, hhi⟩ := hdigit (b.toNat / 16) (by omega)
    obtain ⟨hlow, hlo⟩ := hdigit (b.toNat % 16) (by omega)
    rw [bytesToHex, List.flatMap_cons, hhigh, hlow]
    show unhex (_ :: _ :: bytesToHex bs) = _
    rw [unhex, hhi, hlo, ih]
    simp only [Option.bind_eq_bind, Option.bind_some, Nat.div_add_mod', UInt8.ofNat_toNat]

/-! ### Lines -/

theorem keyLabel_length : keyLabel.length = 14 := by decide

theorem keyLabel_split (s t : List UInt8) :
    (keyLabel ++ s ++ t).take 14 = keyLabel ∧ (keyLabel ++ s ++ t).drop 14 = s ++ t := by
  rw [List.append_assoc, ← keyLabel_length]
  exact ⟨List.take_left, List.drop_left⟩

theorem keyLine_iff (line clientRandom secret : List UInt8) :
    keyLine line = some (clientRandom, secret) ↔ KeyLine line clientRandom secret := by
  constructor
  · intro h
    simp only [keyLine] at h
    split at h
    · next hshape =>
      obtain ⟨hlabel, hspace, htail⟩ := hshape
      obtain ⟨cr, hcr, h⟩ := Option.bind_eq_some_iff.mp h
      obtain ⟨s, hs, h⟩ := Option.bind_eq_some_iff.mp h
      split at h
      · next hlen =>
        obtain ⟨rfl, rfl⟩ := Prod.mk.inj (Option.some.inj h)
        have hline : line = keyLabel ++ (line.drop 14).take 64 ++
            0x20 :: (((line.drop 14).drop 65).take 96 ++ (line.drop 14).drop 161) := by
          have hrest : (line.drop 14).drop 64 = 0x20 :: (line.drop 14).drop 65 := by
            obtain ⟨hlt, hget⟩ := List.getElem?_eq_some_iff.mp hspace
            rw [List.drop_eq_getElem_cons hlt, hget]
          have hsplit : ((line.drop 14).drop 65).take 96 ++ (line.drop 14).drop 161 =
              (line.drop 14).drop 65 := by
            rw [show 161 = 65 + 96 from rfl, ← List.drop_drop, List.take_append_drop]
          rw [hsplit, ← hrest, List.append_assoc, List.take_append_drop, ← hlabel,
            List.take_append_drop]
        rw [hline]
        exact .mk hcr hlen.1 hs hlen.2 htail
      · cases h
    · cases h
  · rintro ⟨hdigits, hcr, hdigits', hsecret, htail⟩
    rename_i digits digits' tail
    have hlen := unhex_length hdigits
    have hlen' := unhex_length hdigits'
    obtain ⟨htake, hdrop⟩ := keyLabel_split digits (0x20 :: (digits' ++ tail))
    have hspace : (digits ++ 0x20 :: (digits' ++ tail))[64]? = some 0x20 := by
      rw [List.getElem?_append_right (by omega), show 64 - digits.length = 0 by omega]
      rfl
    have hsecond : (digits ++ 0x20 :: (digits' ++ tail)).drop 65 = digits' ++ tail := by
      rw [show 65 = digits.length + 1 by omega, ← List.drop_drop, List.drop_left]
      rfl
    have hblank : (digits ++ 0x20 :: (digits' ++ tail)).drop 161 = tail := by
      rw [show 161 = 65 + digits'.length by omega, ← List.drop_drop, hsecond, List.drop_left]
    have hfirst : (digits ++ 0x20 :: (digits' ++ tail)).take 64 = digits := by
      rw [show 64 = digits.length by omega, List.take_left]
    have hdigits96 : (digits' ++ tail).take 96 = digits' := by
      rw [show 96 = digits'.length by omega, List.take_left]
    simp only [keyLine, htake, hdrop, hspace, hsecond, hblank, hfirst, hdigits96, hdigits, hdigits',
      hcr, hsecret, Option.bind_eq_bind, Option.bind_some, true_and, and_self, if_true]
    exact if_pos htail

theorem rdropWhile_blank {digits tail : List UInt8} (hdigits : ∀ c ∈ digits, blank c = false)
    (htail : ∀ c ∈ tail, blank c = true) : (digits ++ tail).rdropWhile blank = digits := by
  rw [List.rdropWhile, List.reverse_append, List.dropWhile_append_of_pos (by simpa using htail)]
  have hself : digits.rdropWhile blank = digits := by
    rw [List.rdropWhile_eq_self_iff]
    intro hne
    simp [hdigits _ (List.getLast_mem hne)]
  exact hself

/-- A well-formed line is stored as what it says. -/
theorem KeyLine.lineEntry_eq {line clientRandom secret : List UInt8}
    (h : KeyLine line clientRandom secret) :
    lineEntry line = some (bytesToHex clientRandom, secret) := by
  obtain ⟨hdigits, hcr, hdigits', hsecret, htail⟩ := h
  rename_i digits digits' tail
  obtain ⟨hblank, hlower, -⟩ := unhex_digits hdigits
  obtain ⟨hblank', -, hbytes⟩ := unhex_digits hdigits'
  have hlen := unhex_length hdigits
  have hspace : ∀ c ∈ digits, decide (c ≠ 0x20) = true := by
    intro c hc
    have hc := hblank c hc
    simp only [blank, decide_eq_false_iff_not, not_or] at hc
    exact decide_eq_true hc.2.2
  obtain ⟨htake, hdrop⟩ := keyLabel_split digits (0x20 :: (digits' ++ tail))
  have hfield : (digits ++ 0x20 :: (digits' ++ tail)).takeWhile (fun c => decide (c ≠ 0x20)) =
      digits := by
    rw [List.takeWhile_append_of_pos hspace]
    exact List.append_nil _
  have hrest : (digits ++ 0x20 :: (digits' ++ tail)).dropWhile (fun c => decide (c ≠ 0x20)) =
      0x20 :: (digits' ++ tail) := by
    rw [List.dropWhile_append_of_pos hspace]
    rfl
  simp only [lineEntry, htake, hdrop, hfield, hrest, hlen, hcr, hlower,
    rdropWhile_blank hblank' htail, hbytes, ne_eq, not_true_eq_false, if_false, Nat.reduceMul]

theorem keyLine_captureLine {clientRandom secret : List UInt8} (hcr : clientRandom.length = 32)
    (hsecret : secret.length = 48) :
    keyLine (captureLine clientRandom secret) = some (clientRandom, secret) := by
  have hrandom := unhex_bytesToHex clientRandom
  have hkey := unhex_bytesToHex secret
  have hlen := unhex_length hrandom
  have hlen' := unhex_length hkey
  have hline : captureLine clientRandom secret =
      keyLabel ++ bytesToHex clientRandom ++ 0x20 :: (bytesToHex secret ++ [0x0A]) := by
    rw [captureLine, snprintf, List.take_of_length_le]
    · rw [List.append_assoc _ (text " "), List.append_assoc _ (text " " ++ _)]
      rfl
    · simp only [List.length_append, hlen, hlen', hcr, hsecret]
      decide
  rw [keyLine_iff, hline]
  exact .mk hrandom hcr hkey hsecret (by decide)

/-! ### The map -/

theorem masterSecret_empty (clientRandom : List UInt8) :
    KeyMap.masterSecret ∅ clientRandom = [] := by
  simp [KeyMap.masterSecret, TlsKeyLog.masterSecret, KeyMap.keyLog]

theorem masterSecret_addLine (m : KeyMap) (line clientRandom : List UInt8) :
    (KeyMap.addLine m line).masterSecret clientRandom =
      match lineEntry line with
      | some (key, secret) =>
        if bytesToHex clientRandom = key then secret else KeyMap.masterSecret m clientRandom
      | none => KeyMap.masterSecret m clientRandom := by
  rw [KeyMap.addLine]
  cases lineEntry line with
  | none => rfl
  | some entry =>
    obtain ⟨key, secret⟩ := entry
    simp only [KeyMap.masterSecret, TlsKeyLog.masterSecret, KeyMap.keyLog]
    by_cases hkey : bytesToHex clientRandom = key
    · rw [if_pos hkey, hkey, AList.lookup_insert]
      rfl
    · rw [if_neg hkey, AList.lookup_insert_ne hkey]

theorem secretOf_snoc (lines : List (List UInt8)) (line clientRandom : List UInt8) :
    secretOf (lines ++ [line]) clientRandom =
      match keyLine line with
      | some (cr, secret) => if cr = clientRandom then secret else secretOf lines clientRandom
      | none => secretOf lines clientRandom := by
  simp only [secretOf, List.foldl_append, List.foldl_cons, List.foldl_nil]

theorem addLines_snoc (m : KeyMap) (lines : List (List UInt8)) (line : List UInt8) :
    KeyMap.addLines m (lines ++ [line]) = KeyMap.addLine (KeyMap.addLines m lines) line := by
  simp [KeyMap.addLines]

/-- The map answers every client random with its last well-formed line. -/
def Answers (lines : List (List UInt8)) : Prop :=
  ∀ clientRandom, clientRandom.length = 32 →
    KeyMap.masterSecret (KeyMap.addLines ∅ lines) clientRandom = secretOf lines clientRandom

/-- A line that is stored without being well-formed stores the secret that is already there. -/
def Harmless (m : KeyMap) (line : List UInt8) : Prop :=
  keyLine line = none → ∀ clientRandom, clientRandom.length = 32 →
    ∀ secret, lineEntry line = some (bytesToHex clientRandom, secret) →
      secret = KeyMap.masterSecret m clientRandom

theorem answers_snoc {lines : List (List UInt8)} (h : Answers lines) (line : List UInt8) :
    Answers (lines ++ [line]) ↔ Harmless (KeyMap.addLines ∅ lines) line := by
  have hsnoc := fun cr => masterSecret_addLine (KeyMap.addLines ∅ lines) line cr
  rw [Answers, Harmless, addLines_snoc]
  cases hline : keyLine line with
  | some entry =>
    obtain ⟨cr', secret⟩ := entry
    have hentry := ((keyLine_iff ..).mp hline).lineEntry_eq
    refine iff_of_true (fun cr hcr => ?_) (by simp)
    rw [hsnoc, hentry, secretOf_snoc, hline]
    by_cases hsame : cr' = cr
    · simp [hsame]
    · have hne : bytesToHex cr ≠ bytesToHex cr' := bytesToHex_injective.ne (Ne.symm hsame)
      simp only [if_neg hne, if_neg hsame]
      exact h cr hcr
  | none =>
    have hspec : ∀ cr, secretOf (lines ++ [line]) cr = secretOf lines cr := by
      intro cr
      rw [secretOf_snoc, hline]
    constructor
    · intro hall _ cr hcr secret hentry
      have hcur := hall cr hcr
      rw [hsnoc, hentry, hspec, ← h cr hcr] at hcur
      simpa using hcur
    · intro hharm cr hcr
      rw [hsnoc, hspec, ← h cr hcr]
      cases hentry : lineEntry line with
      | none => rfl
      | some entry =>
        obtain ⟨key, secret⟩ := entry
        by_cases hkey : bytesToHex cr = key
        · subst hkey
          exact (if_pos rfl).trans (hharm rfl cr hcr secret hentry)
        · exact if_neg hkey

/-- What the hook writes is read back. -/
theorem masterSecret_captured (m : KeyMap) {key : Nat → UInt8} {params : Option (List NCryptBuffer)}
    {line : List UInt8} (h : captureMasterKey key params = some line) :
    ∃ clientRand, clientRandOf params = some clientRand ∧ 32 ≤ clientRand.length ∧
      (KeyMap.addLine m line).masterSecret (clientRand.take 32) = readBytes key 0x1c 48 := by
  rw [captureMasterKey] at h
  cases hrand : clientRandOf params with
  | none =>
    rw [hrand] at h
    cases h
  | some r =>
    simp only [hrand] at h
    split at h
    · next hlen =>
      obtain rfl := Option.some.inj h
      refine ⟨r, rfl, hlen, ?_⟩
      have hline := @keyLine_captureLine (r.take 32) (readBytes key 0x1c 48)
        (by simp [hlen]) (by simp)
      rw [masterSecret_addLine, ((keyLine_iff ..).mp hline).lineEntry_eq]
      exact if_pos rfl
    · cases h

/-- Along every sequence of lines the map answers as the well-formed lines say exactly where no
other line replaces a secret by a different one; what the hook writes is always read back. -/
theorem answers_iff (lines : List (List UInt8)) :
    ((∀ pre, pre <+: lines → Answers pre) ↔
      ∀ pre line, pre ++ [line] <+: lines → Harmless (KeyMap.addLines ∅ pre) line) ∧
    ∀ (m : KeyMap) (key : Nat → UInt8) (params : Option (List NCryptBuffer)) (line : List UInt8),
      captureMasterKey key params = some line →
      ∃ clientRand, clientRandOf params = some clientRand ∧ 32 ≤ clientRand.length ∧
        (KeyMap.addLine m line).masterSecret (clientRand.take 32) = readBytes key 0x1c 48 := by
  refine ⟨history_invariant_iff ?_ (fun pre line h => answers_snoc h line) lines,
    fun m key params line h => masterSecret_captured m h⟩
  intro cr _
  exact masterSecret_empty cr

/-- A whole line for a client random of zeros, and the same line cut after two digits of its
secret, as the end of a log that is being written. -/
def cutLog : List (List UInt8) :=
  let line := captureLine (List.replicate 32 0) (List.replicate 48 0x2A)
  [line, line.take (14 + 64 + 1 + 2)]

theorem cutLog_forgets : ¬∀ lines, Answers lines := by
  intro h
  have hcut := h cutLog (List.replicate 32 0) rfl
  revert hcut
  decide +kernel

end NetDebugger.Tls
