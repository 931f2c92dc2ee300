import NetDebugger.Ca
import NetDebugger.Lib.Frames

/-! The serial numbers of the leaf certificates.  The counter lives in the process and the CA on disk,
so each run of the application counts from the start again. -/

namespace NetDebugger.Ca

open Lib

/-! ### Minting -/

/-- What mbedTLS answers while a leaf is minted: whether it generates a key, the certificate, and the
export of the key. -/
structure MintEnv where
  leafKey : Bool
  certPem : Option Pem
  keyPem : Option Pem

/-- A call of `certForHost`. The lock puts the calls of all connection threads in one order. -/
structure Call where
  host : List UInt8
  env : MintEnv

variable {Key : Type}

/-- `certForHost` for a host that is not cached, with the serial of the leaf. The counter moves on
as soon as there is a key. -/
def KndMitmCa.mint (ca : KndMitmCa Key) (env : MintEnv) :
    KndMitmCa Key × Except String (MintedCert × List UInt8) :=
  if !env.leafKey then (ca, .error "leaf key gen failed")
  else
    let serial := beBytes 8 ca.serial.toNat
    let ca := { ca with serial := ca.serial + 1 }
    match env.certPem with
    | none => (ca, .error "leaf cert creation failed")
    | some certPem =>
      match env.keyPem with
      | none => (ca, .error "leaf key export failed")
      | some keyPem =>
        (ca, .ok ({ certChainPem := certPem ++ ca.caCertPem, keyPem := keyPem }, serial))

/-- `KndMitmCa::certForHost`. -/
def KndMitmCa.certForHost (ca : KndMitmCa Key) (c : Call) : KndMitmCa Key × Except String MintedCert :=
  if !ca.ready then (ca, .error "CA not ready")
  else
    match ca.cache.lookup c.host with
    | some mc => (ca, .ok mc)
    | none =>
      match ca.mint c.env with
      | (ca, .ok (mc, _)) => ({ ca with cache := (c.host, mc) :: ca.cache }, .ok mc)
      | (ca, .error e) => (ca, .error e)

/-- The serial of the leaf that a call mints, if it mints one. -/
def KndMitmCa.minted (ca : KndMitmCa Key) (c : Call) : Option (List UInt8) :=
  if ca.ready && (ca.cache.lookup c.host).isNone then (ca.mint c.env).2.toOption.map Prod.snd
  else none

/-- The serials of the leaves minted in one run. -/
def KndMitmCa.serials : KndMitmCa Key → List Call → List (List UInt8)
  | _, [] => []
  | ca, c :: cs => (ca.minted c).toList ++ (ca.certForHost c).1.serials cs

/-- The serial of the CA's own certificate. -/
def caSerial : List UInt8 := [0x01]

/-- The places, among the attempts of a run, of those that mint a leaf: an attempt is a call for a
host without a leaf so far, with a key generated for it. -/
def places (hosts : List (List UInt8)) (attempts : Nat) : List Call → List Nat
  | [] => []
  | c :: cs =>
    if c.host ∈ hosts ∨ c.env.leafKey = false then places hosts attempts cs
    else if c.env.certPem.isSome ∧ c.env.keyPem.isSome then
      attempts :: places (c.host :: hosts) (attempts + 1) cs
    else places hosts (attempts + 1) cs

/-! ### A run -/

/-- A ready CA after some attempts that minted leaves for `hosts`. -/
structure KndMitmCa.After (ca : KndMitmCa Key) (hosts : List (List UInt8)) (attempts : Nat) : Prop where
  ready : ca.ready = true
  serial : ca.serial.toNat = (0x1000 + attempts) % 2 ^ 64
  cached : ∀ host, (ca.cache.lookup host).isSome ↔ host ∈ hosts

theorem KndMitmCa.After.bump {ca : KndMitmCa Key} {hosts : List (List UInt8)} {attempts : Nat}
    (h : ca.After hosts attempts) :
    ({ ca with serial := ca.serial + 1 } : KndMitmCa Key).After hosts (attempts + 1) := by
  refine ⟨h.ready, ?_, h.cached⟩
  have hserial := h.serial
  rw [UInt64.toNat_add, hserial]
  simp only [UInt64.reduceToNat]
  omega

/-- The new leaf goes into the cache. -/
theorem KndMitmCa.After.cache {ca : KndMitmCa Key} {hosts : List (List UInt8)} {attempts : Nat}
    (h : ca.After hosts attempts) (host : List UInt8) (mc : MintedCert) :
    ({ ca with cache := (host, mc) :: ca.cache } : KndMitmCa Key).After (host :: hosts) attempts := by
  refine ⟨h.ready, h.serial, fun other => ?_⟩
  rw [List.lookup_cons, List.mem_cons]
  by_cases hother : other = host
  · simp [hother]
  · have hbeq : (other == host) = false := beq_eq_false_iff_ne.mpr hother
    simp [hbeq, hother, h.cached other]

/-- A call that is no attempt. -/
theorem KndMitmCa.After.served {ca : KndMitmCa Key} {hosts : List (List UInt8)} {attempts : Nat}
    (h : ca.After hosts attempts) {c : Call} (hc : c.host ∈ hosts ∨ c.env.leafKey = false) :
    ca.minted c = none ∧ (ca.certForHost c).1 = ca := by
  cases hlookup : ca.cache.lookup c.host with
  | some mc => simp [KndMitmCa.minted, KndMitmCa.certForHost, h.ready, hlookup]
  | none =>
    have hhost : c.host ∉ hosts := by
      rw [← h.cached, hlookup]
      decide
    have hkey : c.env.leafKey = false := hc.resolve_left hhost
    have hmint : ca.mint c.env = (ca, .error "leaf key gen failed") := by
      rw [KndMitmCa.mint, hkey]
      rfl
    simp [KndMitmCa.minted, KndMitmCa.certForHost, h.ready, hlookup, hmint, Except.toOption]

/-- An attempt that mints no leaf uses up a serial all the same. -/
theorem KndMitmCa.After.wasted {ca : KndMitmCa Key} {hosts : List (List UInt8)} {attempts : Nat}
    (h : ca.After hosts attempts) {c : Call} (hc : ¬ (c.host ∈ hosts ∨ c.env.leafKey = false))
    (hfail : ¬ (c.env.certPem.isSome ∧ c.env.keyPem.isSome)) :
    ca.minted c = none ∧ (ca.certForHost c).1.After hosts (attempts + 1) := by
  obtain ⟨hhost, hkey⟩ := not_or.mp hc
  have hlookup : ca.cache.lookup c.host = none :=
    Option.not_isSome_iff_eq_none.mp (mt (h.cached c.host).mp hhost)
  obtain ⟨e, hmint⟩ : ∃ e, ca.mint c.env = ({ ca with serial := ca.serial + 1 }, .error e) := by
    rw [KndMitmCa.mint, Bool.eq_true_of_not_eq_false hkey]
    cases hcert : c.env.certPem with
    | none => exact ⟨_, rfl⟩
    | some certPem =>
      cases hpem : c.env.keyPem with
      | none => exact ⟨_, rfl⟩
      | some keyPem => exact absurd ⟨by rw [hcert]; rfl, by rw [hpem]; rfl⟩ hfail
  constructor
  · simp [KndMitmCa.minted, h.ready, hlookup, hmint, Except.toOption]
  · have hnext : (ca.certForHost c).1 = { ca with serial := ca.serial + 1 } := by
      simp [KndMitmCa.certForHost, h.ready, hlookup, hmint]
    rw [hnext]
    exact h.bump

theorem KndMitmCa.After.minted {ca : KndMitmCa Key} {hosts : List (List UInt8)} {attempts : Nat}
    (h : ca.After hosts attempts) {c : Call} (hc : ¬ (c.host ∈ hosts ∨ c.env.leafKey = false))
    (hmade : c.env.certPem.isSome ∧ c.env.keyPem.isSome) :
    (∃ serial, ca.minted c = some serial ∧ beNat serial = (0x1000 + attempts) % 2 ^ 64) ∧
      (ca.certForHost c).1.After (c.host :: hosts) (attempts + 1) := by
  obtain ⟨hhost, hkey⟩ := not_or.mp hc
  have hlookup : ca.cache.lookup c.host = none :=
    Option.not_isSome_iff_eq_none.mp (mt (h.cached c.host).mp hhost)
  obtain ⟨certPem, hcert⟩ := Option.isSome_iff_exists.mp hmade.1
  obtain ⟨keyPem, hpem⟩ := Option.isSome_iff_exists.mp hmade.2
  have hmint : ca.mint c.env = ({ ca with serial := ca.serial + 1 },
      .ok (⟨certPem ++ ca.caCertPem, keyPem⟩, beBytes 8 ca.serial.toNat)) := by
    rw [KndMitmCa.mint, Bool.eq_true_of_not_eq_false hkey, hcert, hpem]
    rfl
  constructor
  · refine ⟨beBytes 8 ca.serial.toNat, ?_, ?_⟩
    · simp [KndMitmCa.minted, h.ready, hlookup, hmint, Except.toOption]
    · rw [beNat_beBytes ca.serial.toNat_lt, h.serial]
  · have hnext : (ca.certForHost c).1 = { ca with
        serial := ca.serial + 1
        cache := (c.host, ⟨certPem ++ ca.caCertPem, keyPem⟩) :: ca.cache } := by
      simp [KndMitmCa.certForHost, h.ready, hlookup, hmint]
    rw [hnext]
    exact h.bump.cache c.host _

/-- The serials of a run count its attempts. -/
theorem KndMitmCa.After.serials_eq {ca : KndMitmCa Key} {hosts : List (List UInt8)} {attempts : Nat}
    (h : ca.After hosts attempts) (cs : List Call) :
    (ca.serials cs).map beNat =
      (places hosts attempts cs).map fun n => (0x1000 + n) % 2 ^ 64 := by
  induction cs generalizing ca hosts attempts with
  | nil => rfl
  | cons c cs ih =>
    rw [KndMitmCa.serials, places]
    by_cases hc : c.host ∈ hosts ∨ c.env.leafKey = false
    · obtain ⟨hminted, hnext⟩ := h.served hc
      rw [if_pos hc, hminted, hnext]
      exact ih h
    rw [if_neg hc]
    by_cases hmade : c.env.certPem.isSome ∧ c.env.keyPem.isSome
    · obtain ⟨⟨serial, hminted, hserial⟩, hafter⟩ := h.minted hc hmade
      rw [if_pos hmade, hminted, Option.toList_some, List.singleton_append, List.map_cons,
        List.map_cons, hserial, ih hafter]
    · obtain ⟨hminted, hafter⟩ := h.wasted hc hmade
      rw [if_neg hmade, hminted]
      exact ih hafter

/-! ### Runs under one CA -/

section

variable (parseKey : Pem → Option Key) (Issued : Pem → Key → Prop)

/-- A run of the application: the start, the files it finds, and the calls of its threads. -/
structure Run where
  env : StartEnv parseKey Issued
  disk : Disk
  calls : List Call

variable {parseKey Issued}

/-- The run is ready with the key. -/
def Run.Loads (r : Run parseKey Issued) (key : Key) : Prop :=
  ∃ d ca, r.env.loadOrCreate r.disk = (d, some (ca, .ok ())) ∧ ca.caKey = some key

/-- The serials of the leaves that the run mints. -/
def Run.serials (r : Run parseKey Issued) : List (List UInt8) :=
  match (r.env.loadOrCreate r.disk).2 with
  | some (ca, .ok ()) => ca.serials r.calls
  | _ => []

def Run.places (r : Run parseKey Issued) : List Nat := Ca.places [] 0 r.calls

/-- No serial is issued twice, and none is the CA's own. -/
def NeverReused (serials : List (List UInt8)) : Prop :=
  (serials.map beNat).Nodup ∧ beNat caSerial ∉ serials.map beNat

instance (serials : List (List UInt8)) : Decidable (NeverReused serials) :=
  inferInstanceAs (Decidable (_ ∧ _))

/-- A run that is ready starts at the beginning, whichever way it came by its key. -/
theorem StartEnv.loadOrCreate_fresh (env : StartEnv parseKey Issued) (d : Disk) :
    ∀ r ∈ (env.loadOrCreate d).2, r.2 = .ok () → r.1.After [] 0 := by
  intro r hr hok
  rw [StartEnv.loadOrCreate] at hr
  split at hr
  · obtain rfl := Option.some.inj hr
    contradiction
  split at hr
  · obtain rfl := Option.some.inj hr
    exact ⟨rfl, rfl, fun _ => by simp [KndMitmCa.new]⟩
  · obtain ⟨e, hfailed, -⟩ | ⟨g, certPem, -, rfl⟩ := env.create_cases d _ r hr
    · rw [hok] at hfailed
      contradiction
    · exact ⟨rfl, rfl, fun _ => by simp [KndMitmCa.new]⟩

theorem Run.Loads.serials_eq {r : Run parseKey Issued} {key : Key} (h : r.Loads key) :
    r.serials.map beNat = r.places.map fun n => (0x1000 + n) % 2 ^ 64 := by
  obtain ⟨d, ca, hload, -⟩ := h
  have hafter : ca.After [] 0 := r.env.loadOrCreate_fresh r.disk (ca, .ok ()) (by rw [hload]; rfl) rfl
  rw [Run.serials, Run.places, hload]
  exact hafter.serials_eq r.calls

theorem flatMap_serials {key : Key} {runs : List (Run parseKey Issued)}
    (h : ∀ r ∈ runs, r.Loads key) :
    (runs.flatMap Run.serials).map beNat =
      (runs.flatMap Run.places).map fun n => (0x1000 + n) % 2 ^ 64 := by
  rw [List.map_flatMap, List.map_flatMap]
  exact List.flatMap_congr fun r hr => (h r hr).serials_eq

/-- Numbers that wrap collide wherever one starts to count. -/
theorem nodup_shift (k : Nat) (ns : List Nat) :
    (ns.map fun n => (k + n) % 2 ^ 64).Nodup ↔ (ns.map fun n => n % 2 ^ 64).Nodup := by
  have hshift : (ns.map fun n => (k + n) % 2 ^ 64) =
      (ns.map fun n => n % 2 ^ 64).map fun n => (k + n) % 2 ^ 64 := by
    rw [List.map_map]
    apply List.map_congr_left
    intro n _
    simp only [Function.comp_apply]
    omega
  rw [hshift]
  constructor
  · exact List.Nodup.of_map _
  · apply List.Nodup.map_on
    intro a ha b hb heq
    obtain ⟨a, -, rfl⟩ := List.mem_map.mp ha
    obtain ⟨b, -, rfl⟩ := List.mem_map.mp hb
    omega

/-- Serials are unique under a CA exactly when no two mints, be they of one run or of two, are at the
same place among the attempts of their runs, as the counter wraps, and none is where it is at 1. -/
theorem serials_unique_iff {key : Key} {runs : List (Run parseKey Issued)}
    (h : ∀ r ∈ runs, r.Loads key) :
    NeverReused (runs.flatMap Run.serials) ↔
      ((runs.flatMap Run.places).map fun n => n % 2 ^ 64).Nodup ∧
        ∀ n ∈ runs.flatMap Run.places, n % 2 ^ 64 ≠ 2 ^ 64 - 0xFFF := by
  rw [NeverReused, flatMap_serials h]
  apply and_congr
  · exact nodup_shift 0x1000 _
  · rw [show beNat caSerial = 1 from rfl, List.mem_map]
    constructor
    · intro hca n hn hplace
      apply hca
      exact ⟨n, hn, by omega⟩
    · rintro hplaces ⟨n, hn, hone⟩
      apply hplaces n hn
      omega

end

/-! Two runs on the files that an earlier one left. -/

/-- A call for the host of one octet, which mints unless mbedTLS can write no certificate. -/
def octetCall (host : UInt8) (certPem : Option Pem) : Call := ⟨[host], ⟨true, certPem, some [0x4B]⟩⟩

def octetRun (calls : List Call) : Run octetKey OctetIssued :=
  ⟨octetStart 2 .whole, ⟨[0x43, 1], [1]⟩, calls⟩

theorem octetRun_loads (calls : List Call) : (octetRun calls).Loads 1 :=
  ⟨⟨[0x43, 1], [1]⟩, ⟨true, [0x43, 1], some 1, 0x1000, []⟩, rfl, rfl⟩

theorem serials_unique_apart : NeverReused
    ([octetRun [octetCall 0x61 (some [0x4C])],
      octetRun [octetCall 0x61 none, octetCall 0x61 (some [0x4C])]].flatMap Run.serials) :=
  (serials_unique_iff (by
    intro r hr
    simp only [List.mem_cons, List.not_mem_nil, or_false] at hr
    obtain rfl | rfl := hr <;> exact octetRun_loads _)).mpr (by decide)

/-- Each run mints its first leaf with the serial 0x1000. -/
theorem serials_reused : ¬ ∀ (runs : List (Run octetKey OctetIssued)) (key : UInt8),
    (∀ r ∈ runs, r.Loads key) → NeverReused (runs.flatMap Run.serials) := by
  intro h
  have hunique := h [octetRun [octetCall 0x61 (some [0x4C])], octetRun [octetCall 0x62 (some [0x4C])]]
    1 (by
      intro r hr
      simp only [List.mem_cons, List.not_mem_nil, or_false] at hr
      obtain rfl | rfl := hr <;> exact octetRun_loads _)
  exact absurd hunique (by decide)

end NetDebugger.Ca
