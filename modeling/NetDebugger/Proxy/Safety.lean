import NetDebugger.Proxy.Dispatch
import NetDebugger.Tls.Safety

/-! `ParseSni` with checks on its sums.  Each length that it adds is below 2^16 and each index is
compared with the end before it is read, so that no sum comes near the largest word, however long the
buffer is. -/

namespace NetDebugger.Proxy

open Lib Tls NetDebugger.Http

def sniLoop64 (d : Bytes) (extEnd : Nat) : Nat → Nat → Option Bytes
  | 0, _ => none
  | fuel + 1, p => do
    let next ← checkedAdd 64 p 4
    if next ≤ extEnd then do
      let et ← be16 d p
      let el ← be16 d (p + 2)
      if et = 0 then do
        let start ← checkedAdd 64 next 5
        if start ≤ extEnd then do
          let nameLen ← be16 d (next + 3)
          if (← checkedAdd 64 start nameLen) ≤ extEnd then slice d start nameLen else some []
        else some []
      else do sniLoop64 d extEnd fuel (← checkedAdd 64 next el)
    else some []

def parseSni64 (d : Bytes) : Option Bytes :=
  let n := d.length
  if n < 43 then some []
  else do
    if (← d[0]?) ≠ 0x16 then some []
    else
      if (← d[5]?) ≠ 0x01 then some []
      else
        let p := 5 + 4 + 2 + 32
        if p ≥ n then some []
        else do
          let p ← checkedAdd 64 (p + 1) (← d[p]?).toNat
          let stop ← checkedAdd 64 p 2
          if stop > n then some []
          else do
            let p ← checkedAdd 64 stop (← be16 d p)
            if p ≥ n then some []
            else do
              let p ← checkedAdd 64 (← checkedAdd 64 p 1) (← d[p]?).toNat
              let start ← checkedAdd 64 p 2
              if start > n then some []
              else do
                let extEnd ← checkedAdd 64 start (← be16 d p)
                sniLoop64 d (min extEnd n) (n + 1) start

variable {d : Bytes}

theorem be16_lt {p v : Nat} (h : be16 d p = some v) : v < 256 ^ 2 := by
  obtain ⟨hi, -, h⟩ := Option.bind_eq_some_iff.mp h
  obtain ⟨lo, -, h⟩ := Option.bind_eq_some_iff.mp h
  have hhi := hi.toNat_lt
  have hlo := lo.toNat_lt
  obtain rfl := Option.some.inj h
  omega

/-- An index is at most one length behind the end. -/
theorem sniLoop64_eq {extEnd fuel p : Nat} (hend : extEnd < 2 ^ 63) (hp : p < extEnd + 256 ^ 2) :
    sniLoop64 d extEnd fuel p = sniLoop d extEnd fuel p := by
  induction fuel generalizing p with
  | zero => rfl
  | succ fuel ih =>
    unfold sniLoop64 sniLoop
    rw [checkedAdd_of_lt (show p + 4 < 2 ^ 64 by omega), Option.bind_eq_bind, Option.bind_some]
    by_cases hroom : p + 4 ≤ extEnd
    · rw [if_pos hroom, if_pos hroom]
      cases het : be16 d p with
      | none => rfl
      | some et =>
      cases hel : be16 d (p + 2) with
      | none => rfl
      | some el =>
      have hlen := be16_lt hel
      simp only [Option.bind_some]
      by_cases hname : et = 0
      · rw [if_pos hname, if_pos hname, checkedAdd_of_lt (show p + 4 + 5 < 2 ^ 64 by omega),
          Option.bind_some]
        by_cases hlist : p + 4 + 5 ≤ extEnd
        · rw [if_pos hlist, if_pos hlist]
          cases hnameLen : be16 d (p + 4 + 3) with
          | none => rfl
          | some nameLen =>
            have hnameLen' := be16_lt hnameLen
            rw [Option.bind_some, Option.bind_some,
              checkedAdd_of_lt (show p + 4 + 5 + nameLen < 2 ^ 64 by omega), Option.bind_some]
        · rw [if_neg hlist, if_neg hlist]
      · rw [if_neg hname, if_neg hname, checkedAdd_of_lt (show p + 4 + el < 2 ^ 64 by omega),
          Option.bind_some]
        exact ih (by omega)
    · rw [if_neg hroom, if_neg hroom]

/-- The checks of `ParseSni` never fail. -/
theorem parseSni64_eq (d : Bytes) : parseSni64 d = parseSni d := by
  unfold parseSni64 parseSni
  by_cases hshort : d.length < 43
  · rw [if_pos hshort, if_pos hshort]
  have hget (p : Nat) (hp : p < d.length) : d[p]? = some d[p] := List.getElem?_eq_getElem hp
  have hbyte (b : UInt8) : b.toNat < 256 := b.toNat_lt
  simp only [hshort, if_false, hget 0 (by omega), hget 5 (by omega), Option.bind_eq_bind,
    Option.bind_some]
  by_cases htype : d[0] ≠ 0x16
  · rw [if_pos htype, if_pos htype]
  rw [if_neg htype, if_neg htype]
  by_cases hhello : d[5] ≠ 0x01
  · rw [if_pos hhello, if_pos hhello]
  rw [if_neg hhello, if_neg hhello]
  by_cases h1 : 5 + 4 + 2 + 32 ≥ d.length
  · rw [if_pos h1, if_pos h1]
  have hsid := hbyte d[5 + 4 + 2 + 32]
  simp only [h1, if_false, hget _ (Nat.lt_of_not_le h1), Option.bind_some]
  rw [checkedAdd_of_lt (by omega), Option.bind_some, checkedAdd_of_lt (by omega), Option.bind_some]
  generalize hp1 : 5 + 4 + 2 + 32 + 1 + d[5 + 4 + 2 + 32].toNat = suites
  by_cases h2 : suites + 2 > d.length
  · rw [if_pos h2, if_pos h2]
  obtain ⟨suitesLen, hsuites⟩ := be16_eq (Nat.le_of_not_lt h2)
  have hsuitesLen := be16_lt hsuites
  simp only [h2, if_false, hsuites, Option.bind_some]
  rw [checkedAdd_of_lt (by omega), Option.bind_some]
  generalize hp2 : suites + 2 + suitesLen = methods
  by_cases h3 : methods ≥ d.length
  · rw [if_pos h3, if_pos h3]
  have hmethodsLen := hbyte d[methods]
  simp only [h3, if_false, hget _ (Nat.lt_of_not_le h3), Option.bind_some]
  rw [checkedAdd_of_lt (by omega), Option.bind_some, checkedAdd_of_lt (by omega), Option.bind_some,
    checkedAdd_of_lt (by omega), Option.bind_some]
  generalize hp3 : methods + 1 + d[methods].toNat = extensions
  by_cases h4 : extensions + 2 > d.length
  · rw [if_pos h4, if_pos h4]
  obtain ⟨extLen, hext⟩ := be16_eq (Nat.le_of_not_lt h4)
  have hextLen := be16_lt hext
  simp only [h4, if_false, hext, Option.bind_some]
  rw [checkedAdd_of_lt (by omega), Option.bind_some]
  apply sniLoop64_eq
  all_goals omega

/-- The decoders of TLS read inside what they are given, and end, whatever the bytes are. -/
theorem decoders_safe (A : Gcm) (H : Hmac) :
    (∀ s : ByteVector, SafeStream A s.bytes) ∧
    (∀ master cr sr si, cr.length = 32 → sr.length = 32 →
      ∃ k, deriveKeyBlock64 H master cr sr si = some k ∧ k.cKey.length = si.keyLen ∧
        k.sKey.length = si.keyLen ∧ k.cIV.length = 4 ∧ k.sIV.length = 4) ∧
    (∀ (out inn : ByteVector) (keylog : TlsKeyLog),
      ∃ r, tlsDecryptFlow64 A H out.bytes inn.bytes keylog = some r ∧
        tlsDecryptFlow A H out.bytes inn.bytes keylog = some r) ∧
    ∀ d : Bytes, ∃ name, parseSni64 d = some name ∧ parseSni d = some name := by
  refine ⟨safeStream A, ?_, tlsDecryptFlow64_total A H, ?_⟩
  · intro master cr sr si hcr hsr
    exact deriveKeyBlock64_lengths H master hcr hsr si
  · intro d
    obtain ⟨name, hname⟩ := parseSni_total d
    exact ⟨name, by rw [parseSni64_eq, hname], hname⟩

/-- A record of one byte, which is no whole message. -/
def cutMessage : ByteVector := ⟨[22, 3, 3, 0, 1, 1], by decide⟩

theorem decoders_safe_cut : SafeStream sumGcm cutMessage.bytes ∧
    (∃ k, deriveKeyBlock64 cutHmac [] (List.replicate 32 1) (List.replicate 32 2)
      ⟨16, .sha256, true, false⟩ = some k ∧ k.cIV.length = 4) ∧
    (∃ r, tlsDecryptFlow64 sumGcm cutHmac cutMessage.bytes cutMessage.bytes ⟨fun _ => none⟩ =
      some r) ∧
    ∃ name, parseSni64 cutMessage.bytes = some name := by
  obtain ⟨hstream, hkeys, hflow, hsni⟩ := decoders_safe sumGcm cutHmac
  obtain ⟨k, hk, -, -, hiv, -⟩ :=
    hkeys [] (List.replicate 32 1) (List.replicate 32 2) ⟨16, .sha256, true, false⟩ rfl rfl
  obtain ⟨r, hr, -⟩ := hflow cutMessage cutMessage ⟨fun _ => none⟩
  obtain ⟨name, hname, -⟩ := hsni cutMessage.bytes
  exact ⟨hstream cutMessage, ⟨k, hk, hiv⟩, ⟨r, hr⟩, name, hname⟩

end NetDebugger.Proxy
