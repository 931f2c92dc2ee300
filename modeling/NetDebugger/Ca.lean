import NetDebugger.Lib.Runs

/-! The certificate authority of the proxy, `mitm_ca.cpp`: what it keeps on disk across runs of the
application.  Keys, the parser of a key's PEM and the relation of a certificate to the key that it was
issued for are mbedTLS', and parameters. -/

namespace NetDebugger.Ca

open Lib

abbrev Pem := List UInt8

/-- `MintedCert`. -/
structure MintedCert where
  certChainPem : Pem
  keyPem : Pem
deriving DecidableEq

/-- `KndMitmCa` with its `Impl`: no key means that `caKey` is only initialised. The cache goes from
host to certificate. -/
structure KndMitmCa (Key : Type) where
  ready : Bool
  caCertPem : Pem
  caKey : Option Key
  serial : UInt64
  cache : List (List UInt8 × MintedCert)
deriving DecidableEq

def KndMitmCa.new (Key : Type) : KndMitmCa Key := ⟨false, [], none, 0x1000, []⟩

/-! ### The files -/

/-- The two files. A missing file is an empty one: `ReadFile` cannot tell. -/
structure Disk where
  cert : Pem
  key : Pem
deriving DecidableEq

/-- What becomes of a `WriteFile`: the file cannot be opened and stays, `fwrite` takes only some of the
bytes, some of the bytes are lost when the file is closed, which nobody checks, or all is well. -/
inductive FileWrite
  | kept
  | short (n : Nat)
  | lost (n : Nat)
  | whole

/-- What `WriteFile` returns. -/
def FileWrite.ok : FileWrite → Pem → Bool
  | .kept, _ => false
  | .short n, data => data.length ≤ n
  | .lost _, _ => true
  | .whole, _ => true

/-- What the file holds afterwards. -/
def FileWrite.content : FileWrite → Pem → Pem → Pem
  | .kept, old, _ => old
  | .short n, _, data => data.take n
  | .lost n, _, data => data.take n
  | .whole, _, data => data

/-- `ReadFile`, which returns nothing for a file that cannot be opened. -/
def readFile (readable : Bool) (content : Pem) : Pem := if readable then content else []

section

variable {Key : Type} (parseKey : Pem → Option Key) (Issued : Pem → Key → Prop)

/-- What mbedTLS generates: a key, the certificate issued for it, and its export, which parses back.
Each of the last two may fail. -/
structure Generated where
  key : Key
  certPem : Option Pem
  keyPem : Option Pem
  issued : ∀ c ∈ certPem, Issued c key
  parses : ∀ p ∈ keyPem, parseKey p = some key

/-- What happens around one start. `stops` ends the process between the two writes. -/
structure StartEnv where
  seed : Bool
  certReadable : Bool
  keyReadable : Bool
  generated : Option (Generated parseKey Issued)
  certWrite : FileWrite
  stops : Bool
  keyWrite : FileWrite

variable {parseKey Issued}

/-- `loadOrCreate` once it has no key to load. -/
def StartEnv.create (env : StartEnv parseKey Issued) (d : Disk) (ca : KndMitmCa Key) :
    Disk × Option (KndMitmCa Key × Except String Unit) :=
  match env.generated with
  | none => (d, some (ca, .error "CA key generation failed"))
  | some g =>
    let ca := { ca with caKey := some g.key }
    match g.certPem with
    | none => (d, some (ca, .error "CA cert creation failed"))
    | some certPem =>
      let ca := { ca with caCertPem := certPem }
      match g.keyPem with
      | none => (d, some (ca, .error "CA key export failed"))
      | some keyPem =>
        let d := { d with cert := env.certWrite.content d.cert certPem }
        if !env.certWrite.ok certPem then (d, some (ca, .error "failed to persist CA files"))
        else if env.stops then (d, none)
        else
          let d := { d with key := env.keyWrite.content d.key keyPem }
          if !env.keyWrite.ok keyPem then (d, some (ca, .error "failed to persist CA files"))
          else (d, some ({ ca with ready := true }, .ok ()))

/-- The key that `loadOrCreate` finds: both files have to be there, and the key has to parse. -/
def StartEnv.found (env : StartEnv parseKey Issued) (d : Disk) : Option Key :=
  let certPem := readFile env.certReadable d.cert
  let keyPem := readFile env.keyReadable d.key
  if certPem ≠ [] ∧ keyPem ≠ [] then parseKey keyPem else none

/-- `KndMitmCa::loadOrCreate` of a new object: the files, and the object with what is returned, unless
the process stops. -/
def StartEnv.loadOrCreate (env : StartEnv parseKey Issued) (d : Disk) :
    Disk × Option (KndMitmCa Key × Except String Unit) :=
  let ca := KndMitmCa.new Key
  if !env.seed then (d, some (ca, .error "RNG seed failed"))
  else
    match env.found d with
    | some key =>
      (d, some ({ ca with
        caKey := some key, caCertPem := readFile env.certReadable d.cert, ready := true }, .ok ()))
    | none => env.create d ca

/-! ### Starts of the application -/

/-- The files, and the CA of the last start. -/
structure Host (Key : Type) where
  disk : Disk
  ca : Option (KndMitmCa Key)
deriving DecidableEq

variable (parseKey Issued) in
inductive Event
  | start (env : StartEnv parseKey Issued)
  | deleteCert
  | deleteKey

def Host.step (m : Host Key) : Event parseKey Issued → Option (Host Key)
  | .start env =>
    let (disk, ca) := env.loadOrCreate m.disk
    some { disk, ca := ca.map Prod.fst }
  | .deleteCert => some { m with disk := { m.disk with cert := [] } }
  | .deleteKey => some { m with disk := { m.disk with key := [] } }

variable (parseKey Issued)

/-- No files, or the certificate of the key. -/
def Disk.Initial (d : Disk) : Prop :=
  (d.cert = [] ∧ d.key = []) ∨ ∃ key, parseKey d.key = some key ∧ Issued d.cert key

/-- A ready CA has the certificate of its key. -/
def Host.ReadyMatches (m : Host Key) : Prop :=
  ∀ ca ∈ m.ca, ca.ready = true → ∃ key ∈ ca.caKey, Issued ca.caCertPem key

/-- Files that a start would take for a CA are one. -/
def Disk.Paired (d : Disk) : Prop :=
  d.cert ≠ [] → d.key ≠ [] → ∀ key ∈ parseKey d.key, Issued d.cert key

/-- The certificate and the key that a start comes to write. -/
def StartEnv.writes (env : StartEnv parseKey Issued) (d : Disk) : Option (Pem × Pem) :=
  if env.seed && (env.found d).isNone then
    env.generated.bind fun g => g.certPem.bind fun c => g.keyPem.map fun k => (c, k)
  else none

/-- The files after the two writes. The key is only written after the certificate is. -/
def StartEnv.leaves (env : StartEnv parseKey Issued) (d : Disk) (w : Pem × Pem) : Disk where
  cert := env.certWrite.content d.cert w.1
  key := if env.certWrite.ok w.1 && !env.stops then env.keyWrite.content d.key w.2 else d.key

/-- What a start leaves of its writes is no foreign pair: no certificate, whole or in part, beside a
key that parses and that it was not issued for. -/
def Careful (m : Host Key) : Event parseKey Issued → Prop
  | .start env =>
    ∀ w ∈ env.writes parseKey Issued m.disk,
      (env.leaves parseKey Issued m.disk w).Paired parseKey Issued
  | _ => True

instance [∀ c k, Decidable (Issued c k)] (d : Disk) : Decidable (d.Paired parseKey Issued) :=
  inferInstanceAs (Decidable (d.cert ≠ [] → d.key ≠ [] → ∀ key ∈ parseKey d.key, Issued d.cert key))

instance [∀ c k, Decidable (Issued c k)] (m : Host Key) :
    ∀ e : Event parseKey Issued, Decidable (Careful parseKey Issued m e)
  | .start env =>
    inferInstanceAs (Decidable (∀ w ∈ env.writes parseKey Issued m.disk,
      (env.leaves parseKey Issued m.disk w).Paired parseKey Issued))
  | .deleteCert | .deleteKey => isTrue trivial

/-- A start that can read both files. -/
structure StartEnv.Undisturbed (env : StartEnv parseKey Issued) : Prop where
  seed : env.seed = true
  certReadable : env.certReadable = true
  keyReadable : env.keyReadable = true

/-- A ready CA matches, now and after an undisturbed start. -/
def Host.Safe (m : Host Key) : Prop :=
  m.ReadyMatches Issued ∧ ∀ env : StartEnv parseKey Issued, env.Undisturbed parseKey Issued →
    ∀ t ∈ m.step (.start env), t.ReadyMatches Issued

end

section

variable {Key : Type} {parseKey : Pem → Option Key} {Issued : Pem → Key → Prop}

/-! ### What a start does -/

theorem StartEnv.create_disk (env : StartEnv parseKey Issued) (d : Disk) (ca : KndMitmCa Key) :
    (env.create d ca).1 =
      ((env.generated.bind fun g => g.certPem.bind fun c => g.keyPem.map fun k => (c, k)).map
        (env.leaves parseKey Issued d)).getD d := by
  rw [StartEnv.create]
  cases env.generated with
  | none => rfl
  | some g =>
  cases hcert : g.certPem with
  | none => simp [hcert]
  | some certPem =>
  cases hkey : g.keyPem with
  | none => simp [hcert, hkey]
  | some keyPem =>
  cases hwrote : env.certWrite.ok certPem <;> cases hstops : env.stops <;>
    cases hdone : env.keyWrite.ok keyPem <;>
    simp [hcert, hkey, hwrote, hstops, hdone, StartEnv.leaves]

/-- A start that finds no key fails, or is ready with what it generated. -/
theorem StartEnv.create_cases (env : StartEnv parseKey Issued) (d : Disk) (ca : KndMitmCa Key) :
    ∀ r ∈ (env.create d ca).2, (∃ e, r.2 = .error e ∧ r.1.ready = ca.ready) ∨
      ∃ (g : Generated parseKey Issued) (certPem : Pem), g.certPem = some certPem ∧
        r = ({ ca with caKey := some g.key, caCertPem := certPem, ready := true }, .ok ()) := by
  intro r hr
  rw [StartEnv.create] at hr
  split at hr
  · obtain rfl := Option.some.inj hr
    exact .inl ⟨_, rfl, rfl⟩
  next g _ =>
  simp only at hr
  split at hr
  · obtain rfl := Option.some.inj hr
    exact .inl ⟨_, rfl, rfl⟩
  next certPem hcert =>
  split at hr
  · obtain rfl := Option.some.inj hr
    exact .inl ⟨_, rfl, rfl⟩
  split at hr
  · obtain rfl := Option.some.inj hr
    exact .inl ⟨_, rfl, rfl⟩
  split at hr
  · contradiction
  split at hr
  · obtain rfl := Option.some.inj hr
    exact .inl ⟨_, rfl, rfl⟩
  · obtain rfl := Option.some.inj hr
    exact .inr ⟨g, certPem, hcert, rfl⟩

/-- A CA that a start made ready is the one that it generated. -/
theorem StartEnv.create_ready (env : StartEnv parseKey Issued) (d : Disk) {ca : KndMitmCa Key}
    (hca : ca.ready = false) : ∀ r ∈ (env.create d ca).2, r.1.ready = true →
      ∃ key ∈ r.1.caKey, Issued r.1.caCertPem key := by
  intro r hr hready
  obtain ⟨e, -, hfailed⟩ | ⟨g, certPem, hcert, rfl⟩ := env.create_cases d ca r hr
  · rw [hfailed, hca] at hready
    contradiction
  · exact ⟨g.key, rfl, g.issued certPem hcert⟩

theorem StartEnv.loadOrCreate_disk (env : StartEnv parseKey Issued) (d : Disk) :
    (env.loadOrCreate d).1 =
      ((env.writes parseKey Issued d).map (env.leaves parseKey Issued d)).getD d := by
  rw [StartEnv.loadOrCreate, StartEnv.writes]
  cases env.seed with
  | false => rfl
  | true =>
    cases hfound : env.found d with
    | some key => simp
    | none => simpa using env.create_disk d (KndMitmCa.new Key)

theorem StartEnv.found_eq_some {env : StartEnv parseKey Issued} {d : Disk} {key : Key}
    (h : env.found d = some key) :
    readFile env.certReadable d.cert ≠ [] ∧ readFile env.keyReadable d.key ≠ [] ∧
      parseKey (readFile env.keyReadable d.key) = some key := by
  simp only [StartEnv.found] at h
  split at h
  · next hread => exact ⟨hread.1, hread.2, h⟩
  · contradiction

/-- What can be read is what is there. -/
theorem readFile_ne_nil {readable : Bool} {content : Pem} (h : readFile readable content ≠ []) :
    readFile readable content = content := by
  cases readable with
  | true => rfl
  | false => exact absurd rfl h

/-- A start that finds a pair, or makes one, is ready with one. -/
theorem Disk.Paired.loadOrCreate {d : Disk} (h : d.Paired parseKey Issued)
    (env : StartEnv parseKey Issued) : ∀ r ∈ (env.loadOrCreate d).2, r.1.ready = true →
      ∃ key ∈ r.1.caKey, Issued r.1.caCertPem key := by
  intro r hr hready
  rw [StartEnv.loadOrCreate] at hr
  split at hr
  · obtain rfl := Option.some.inj hr
    contradiction
  split at hr
  · next key hfound =>
    obtain ⟨hcert, hkey, hparse⟩ := StartEnv.found_eq_some hfound
    obtain rfl := Option.some.inj hr
    have hcertRead := readFile_ne_nil hcert
    have hkeyRead := readFile_ne_nil hkey
    rw [hkeyRead] at hkey hparse
    rw [hcertRead] at hcert
    refine ⟨key, rfl, ?_⟩
    simp only [hcertRead]
    exact h hcert hkey key hparse
  · exact env.create_ready d rfl r hr hready

/-- An undisturbed start is ready with whatever lies on disk. -/
theorem paired_of_undisturbed {d : Disk} {ca : Option (KndMitmCa Key)}
    (h : ∀ env : StartEnv parseKey Issued, env.Undisturbed parseKey Issued →
      ∀ t ∈ (Host.mk d ca).step (.start env), t.ReadyMatches Issued) : d.Paired parseKey Issued := by
  intro hcert hkey key hparse
  let env : StartEnv parseKey Issued := ⟨true, true, true, none, .whole, false, .whole⟩
  have hfound : env.found d = some key := by
    simp only [StartEnv.found, env, readFile, if_true]
    rw [if_pos ⟨hcert, hkey⟩]
    exact hparse
  have hload : env.loadOrCreate d =
      (d, some (⟨true, d.cert, some key, 0x1000, []⟩, .ok ())) := by
    simp only [StartEnv.loadOrCreate, hfound]
    rfl
  have hmatches := h env ⟨rfl, rfl, rfl⟩ ⟨d, some ⟨true, d.cert, some key, 0x1000, []⟩⟩ (by
    simp only [Host.step, hload]
    rfl)
  obtain ⟨key', hkey', hissued⟩ := hmatches _ rfl rfl
  obtain rfl := Option.some.inj hkey'
  exact hissued

theorem Host.step_readyMatches {m t : Host Key} {e : Event parseKey Issued}
    (hready : m.ReadyMatches Issued) (hpaired : m.disk.Paired parseKey Issued)
    (hstep : m.step e = some t) : t.ReadyMatches Issued := by
  cases e with
  | start env =>
    obtain rfl := Option.some.inj hstep
    intro ca hca
    obtain ⟨r, hr, rfl⟩ := Option.map_eq_some_iff.mp hca
    exact hpaired.loadOrCreate env r hr
  | deleteCert => exact Option.some.inj hstep ▸ hready
  | deleteKey => exact Option.some.inj hstep ▸ hready

/-- Safe now and after the next start: ready with a pair, and a pair on disk. -/
theorem Host.safe_iff {m : Host Key} :
    m.Safe parseKey Issued ↔ m.ReadyMatches Issued ∧ m.disk.Paired parseKey Issued :=
  ⟨fun h => ⟨h.1, paired_of_undisturbed h.2⟩, fun h =>
    ⟨h.1, fun _ _ _ ht => Host.step_readyMatches h.1 h.2 ht⟩⟩

/-- A step leaves the host safe exactly when it is careful. -/
theorem Host.step_safe {m t : Host Key} {e : Event parseKey Issued} (h : m.Safe parseKey Issued)
    (hstep : m.step e = some t) : t.Safe parseKey Issued ↔ Careful parseKey Issued m e := by
  obtain ⟨hready, hpaired⟩ := Host.safe_iff.mp h
  rw [Host.safe_iff, and_iff_right (Host.step_readyMatches hready hpaired hstep)]
  cases e with
  | start env =>
    have hdisk : t.disk = ((env.writes parseKey Issued m.disk).map
        (env.leaves parseKey Issued m.disk)).getD m.disk := by
      rw [← env.loadOrCreate_disk]
      exact (congrArg Host.disk (Option.some.inj hstep)).symm
    rw [hdisk, Careful]
    cases env.writes parseKey Issued m.disk with
    | none => exact iff_of_true hpaired nofun
    | some w => simp
  | deleteCert =>
    obtain rfl := Option.some.inj hstep
    exact iff_of_true (fun hcert => absurd rfl hcert) trivial
  | deleteKey =>
    obtain rfl := Option.some.inj hstep
    exact iff_of_true (fun _ hkey => absurd rfl hkey) trivial

theorem Disk.Initial.paired {d : Disk} (h : d.Initial parseKey Issued) : d.Paired parseKey Issued := by
  intro hcert _ key hkey
  obtain ⟨hnone, -⟩ | ⟨key', hkey', hissued⟩ := h
  · exact absurd hnone hcert
  · obtain rfl := Option.some.inj (hkey'.symm.trans hkey)
    exact hissued

/-- A start whose two writes go through, if it comes to them, leaves a pair. -/
theorem StartEnv.careful {env : StartEnv parseKey Issued} (hcert : env.certWrite = .whole)
    (hkey : env.keyWrite = .whole) (hstops : env.stops = false) (m : Host Key) :
    Careful parseKey Issued m (.start env) := by
  intro w hw
  have hleaves : env.leaves parseKey Issued m.disk w = ⟨w.1, w.2⟩ := by
    simp [StartEnv.leaves, hcert, hkey, hstops, FileWrite.content, FileWrite.ok]
  unfold StartEnv.writes at hw
  split at hw
  · obtain ⟨g, -, hg⟩ := Option.bind_eq_some_iff.mp hw
    obtain ⟨certPem, hcertPem, hg⟩ := Option.bind_eq_some_iff.mp hg
    obtain ⟨keyPem, hkeyPem, rfl⟩ := Option.map_eq_some_iff.mp hg
    rw [hleaves]
    intro _ _ key hparse
    obtain rfl := Option.some.inj ((g.parses keyPem hkeyPem).symm.trans hparse)
    exact g.issued certPem hcertPem
  · contradiction

/-- In every state that a run of careful steps reaches, a ready CA has the certificate of its key. -/
theorem readyMatches_of_careful {d : Disk} (hd : d.Initial parseKey Issued)
    {es : List (Event parseKey Issued)} {t : Host Key}
    (hes : EachStep Host.step (Careful parseKey Issued) (Host.mk d none) es)
    (hrun : runEvents Host.step (Host.mk d none) es = some t) : t.ReadyMatches Issued := by
  have hstart : (Host.mk d none).Safe parseKey Issued := Host.safe_iff.mpr ⟨nofun, hd.paired⟩
  have hsafe : t.Safe parseKey Issued :=
    runEvents_invariant_of (fun _ _ _ he hs hstep => (Host.step_safe hs hstep).mpr he) hstart hes
      hrun
  exact hsafe.1

/-- Over a run, a ready CA has the certificate of its key, and would have it after one more start,
exactly when no start leaves a foreign pair. -/
theorem ready_matches_iff {d : Disk} (hd : d.Initial parseKey Issued)
    {es : List (Event parseKey Issued)} {t : Host Key}
    (hrun : runEvents Host.step (Host.mk d none) es = some t) :
    (∀ pre m, pre <+: es → runEvents Host.step (Host.mk d none) pre = some m →
      m.Safe parseKey Issued) ↔
      EachStep Host.step (Careful parseKey Issued) (Host.mk d none) es :=
  runEvents_invariant_iff (fun _ _ _ h hstep => Host.step_safe h hstep)
    (Host.safe_iff.mpr ⟨nofun, hd.paired⟩) hrun

end

/-! Keys as single octets: the certificate of a key is its PEM behind a `C`. -/

def octetKey : Pem → Option UInt8
  | [b] => some b
  | _ => none

def OctetIssued (c : Pem) (key : UInt8) : Prop := c = [0x43, key]

instance (c : Pem) (key : UInt8) : Decidable (OctetIssued c key) :=
  inferInstanceAs (Decidable (c = [0x43, key]))

/-- A start that would generate the key `b`. -/
def octetStart (b : UInt8) (keyWrite : FileWrite) : StartEnv octetKey OctetIssued where
  seed := true
  certReadable := true
  keyReadable := true
  generated := some
    { key := b
      certPem := some [0x43, b]
      keyPem := some [b]
      issued := fun _ hc => (Option.some.inj hc).symm
      parses := fun _ hp => (Option.some.inj hp) ▸ rfl }
  certWrite := .whole
  stops := false
  keyWrite := keyWrite

theorem ready_matches_firstRuns :
    Host.Safe octetKey OctetIssued ⟨⟨[0x43, 1], [1]⟩, some ⟨true, [0x43, 1], some 1, 0x1000, []⟩⟩ := by
  have hrun : runEvents Host.step (Host.mk ⟨[], []⟩ none)
      [.start (octetStart 1 .whole), .start (octetStart 2 .whole)] =
      some ⟨⟨[0x43, 1], [1]⟩, some ⟨true, [0x43, 1], some 1, 0x1000, []⟩⟩ := by decide
  exact (ready_matches_iff (.inl ⟨rfl, rfl⟩) hrun).mpr (by decide) _ _ (List.prefix_refl _) hrun

/-- The certificate is deleted, the key cannot be replaced, and the next start takes the new
certificate for that of the old key. -/
theorem ready_mismatch : ¬ ∀ (d : Disk) (es : List (Event octetKey OctetIssued)) t,
    d.Initial octetKey OctetIssued → runEvents Host.step (Host.mk d none) es = some t →
      t.ReadyMatches OctetIssued := by
  intro h
  have hmatches := h ⟨[0x43, 1], [1]⟩
    [.deleteCert, .start (octetStart 2 .kept), .start (octetStart 3 .whole)]
    ⟨⟨[0x43, 2], [1]⟩, some ⟨true, [0x43, 2], some 1, 0x1000, []⟩⟩
    (.inr ⟨1, rfl, rfl⟩) (by decide)
  obtain ⟨key, hkey, hissued⟩ := hmatches _ rfl rfl
  obtain rfl := Option.some.inj hkey
  exact absurd hissued (by decide)

end NetDebugger.Ca
