import NetDebugger.Tls.Recorded

/-! The keylog as the application loads it: once a thread has returned from the hook, it gives back the
secret that the thread came by. -/

namespace NetDebugger.Tls

open Lib

variable {Thread : Type} [DecidableEq Thread]

theorem bytesToHex_line (bs : List UInt8) : ∀ c ∈ bytesToHex bs, c ≠ 0 ∧ c ≠ 0x0A := by
  have hdigit : ∀ n < 16, ∀ c ∈ hex n, c ≠ 0 ∧ c ≠ 0x0A := by decide
  intro c hc
  obtain ⟨b, -, hc⟩ := List.mem_flatMap.mp hc
  have hb := b.toNat_lt
  rcases List.mem_append.mp hc with hc | hc
  · exact hdigit (b.toNat / 16) (by omega) c hc
  · exact hdigit (b.toNat % 16) (by omega) c hc

/-- What a line of the keylog is, up to its end. -/
def lineBody (clientRandom secret : List UInt8) : List UInt8 :=
  keyLabel ++ bytesToHex clientRandom ++ 0x20 :: bytesToHex secret

theorem lineBody_clean (clientRandom secret : List UInt8) :
    ∀ c ∈ lineBody clientRandom secret, c ≠ 0 ∧ c ≠ 0x0A := by
  have hlabel : ∀ c ∈ keyLabel, c ≠ 0 ∧ c ≠ 0x0A := by decide
  intro c hc
  simp only [lineBody, List.mem_append, List.mem_cons] at hc
  rcases hc with (hc | hc) | rfl | hc
  · exact hlabel c hc
  · exact bytesToHex_line _ c hc
  · decide
  · exact bytesToHex_line _ c hc

theorem lineBody_length {clientRandom secret : List UInt8}
    (hlen : clientRandom.length = 32 ∧ secret.length = 48) :
    (lineBody clientRandom secret).length = 175 := by
  have hcr := unhex_length (unhex_bytesToHex clientRandom)
  have hsecret := unhex_length (unhex_bytesToHex secret)
  simp only [lineBody, List.length_append, List.length_cons, keyLabel_length]
  omega

theorem captureLine_eq {clientRandom secret : List UInt8}
    (hlen : clientRandom.length = 32 ∧ secret.length = 48) :
    captureLine clientRandom secret = lineBody clientRandom secret ++ [0x0A] := by
  have hwhole : text "CLIENT_RANDOM " ++ bytesToHex clientRandom ++ text " " ++ bytesToHex secret ++
      text "\n" = lineBody clientRandom secret ++ [0x0A] := by
    simp only [lineBody, List.append_assoc]
    rfl
  rw [captureLine, snprintf, hwhole, List.take_of_length_le]
  rw [List.length_append, lineBody_length hlen]
  decide

theorem KeyMap.addLines_append (m : KeyMap) (lines lines' : List (List UInt8)) :
    KeyMap.addLines m (lines ++ lines') = KeyMap.addLines (KeyMap.addLines m lines) lines' :=
  List.foldl_append

/-- A keylog that has grown by whole lines is loaded as before, and these lines after it. -/
theorem loadFile_grown (m : KeyMap) {contents : List UInt8} (hwhole : WholeLines 0x0A contents)
    {pairs : List (List UInt8 × List UInt8)}
    (hpairs : ∀ p ∈ pairs, p.1.length = 32 ∧ p.2.length = 48) :
    KeyMap.loadFile m (contents ++ pairs.flatMap fun p => captureLine p.1 p.2) =
      KeyMap.addLines (KeyMap.loadFile m contents) (pairs.map fun p => captureLine p.1 p.2) := by
  have hlines : (pairs.flatMap fun p => captureLine p.1 p.2) =
      writeLines 0x0A (pairs.map fun p => lineBody p.1 p.2) := by
    rw [writeLines, List.flatMap_map]
    exact List.flatMap_congr fun p hp => captureLine_eq (hpairs p hp)
  have hfits : ∀ body ∈ pairs.map (fun p => lineBody p.1 p.2), FitsLine 1023 (0x0A : UInt8) body := by
    intro body hbody
    obtain ⟨p, hp, rfl⟩ := List.mem_map.mp hbody
    refine ⟨fun c hc => (lineBody_clean _ _ c hc).2, ?_⟩
    rw [lineBody_length (hpairs p hp)]
    decide
  have hread : (readLines 1023 0x0A (writeLines 0x0A (pairs.map fun p => lineBody p.1 p.2)).length
      (writeLines 0x0A (pairs.map fun p => lineBody p.1 p.2))).map cString =
      pairs.map fun p => captureLine p.1 p.2 := by
    rw [readLines_writeLines hfits (Nat.le_refl _), List.map_map, List.map_map]
    refine List.map_congr_left fun p hp => ?_
    rw [captureLine_eq (hpairs p hp)]
    refine List.takeWhile_eq_self_iff.mpr fun c hc => decide_eq_true ?_
    rcases List.mem_append.mp hc with hc | hc
    · exact (lineBody_clean _ _ c hc).1
    · rw [List.mem_singleton.mp hc]
      decide
  rw [KeyMap.loadFile, KeyMap.loadFile, fgetsLoop, fgetsLoop,
    readLines_append (by decide) hwhole, List.map_append, KeyMap.addLines_append, hlines, hread]

/-- Of lines that agree, each is the answer for its client random. -/
theorem masterSecret_agreed (m : KeyMap) {pairs : List (List UInt8 × List UInt8)}
    (hpairs : ∀ p ∈ pairs, p.1.length = 32 ∧ p.2.length = 48)
    (hagree : ∀ p ∈ pairs, ∀ q ∈ pairs, p.1 = q.1 → p.2 = q.2) {p : List UInt8 × List UInt8}
    (hp : p ∈ pairs) :
    (KeyMap.addLines m (pairs.map fun p => captureLine p.1 p.2)).masterSecret p.1 = p.2 := by
  induction pairs using List.reverseRecOn with
  | nil => contradiction
  | append_singleton pairs q ih =>
    have hq := hpairs q (List.mem_append_right _ (List.mem_singleton_self q))
    have hentry := ((keyLine_iff ..).mp (keyLine_captureLine hq.1 hq.2)).lineEntry_eq
    rw [List.map_append, List.map_singleton, addLines_snoc, masterSecret_addLine, hentry]
    dsimp only
    by_cases hsame : p.1 = q.1
    · rw [if_pos (congrArg bytesToHex hsame)]
      exact (hagree p hp q (List.mem_append_right _ (List.mem_singleton_self q)) hsame).symm
    · rw [if_neg (bytesToHex_injective.ne hsame)]
      have hmem : p ∈ pairs := by
        refine (List.mem_append.mp hp).resolve_right fun h => hsame ?_
        rw [List.mem_singleton.mp h]
      exact ih (fun r hr => hpairs r (List.mem_append_left _ hr))
        (fun r hr r' hr' => hagree r (List.mem_append_left _ hr) r' (List.mem_append_left _ hr')) hmem

/-- Two calls with one client random come by one secret. -/
def SecretsAgree (es : List (HookEvent Thread)) : Prop :=
  ∀ x ∈ es.filterMap HookEvent.call, ∀ y ∈ es.filterMap HookEvent.call,
    ∀ clientRandom secret secret', x.2.Records clientRandom secret →
      y.2.Records clientRandom secret' → secret = secret'

/-- Over every run of the threads, behind whatever whole lines the keylog had before: a call is still
in the DLL, or the keylog gives its secret back. -/
theorem returned_is_read {file : Log → List UInt8} (hfile : WholeLines 0x0A (file .keylog))
    {es : List (HookEvent Thread)} {s : Hook Thread}
    (hes : EachStep Hook.step Hook.WritesKeylog (.attached file) es)
    (hrun : runEvents Hook.step (.attached file) es = some s) (hagree : SecretsAgree es) {t : Thread}
    {c : Call} (hcall : .calls t c ∈ es) {clientRandom secret : List UInt8}
    (hcap : c.Captures clientRandom secret) (m : KeyMap) :
    (s.thread t).running = some c ∨
      (KeyMap.loadFile m (s.file .keylog)).masterSecret clientRandom = secret := by
  obtain ⟨pairs, hlogs⟩ := (Hook.attached_logs file).run hes hrun
  rw [List.nil_append] at hlogs
  have hmem : (t, c) ∈ es.filterMap HookEvent.call := List.mem_filterMap.mpr ⟨_, hcall, rfl⟩
  rcases hlogs.captured t c clientRandom secret hmem hcap with hlogged | howes
  · refine .inr ?_
    have hpairs : ∀ p ∈ pairs, p.1.length = 32 ∧ p.2.length = 48 := by
      intro p hp
      obtain ⟨x, -, hrec⟩ := hlogs.recorded p hp
      exact hrec.lengths
    have hsame : ∀ p ∈ pairs, ∀ q ∈ pairs, p.1 = q.1 → p.2 = q.2 := by
      intro p hp q hq heq
      obtain ⟨x, hx, hrec⟩ := hlogs.recorded p hp
      obtain ⟨y, hy, hrec'⟩ := hlogs.recorded q hq
      exact hagree x hx y hy p.1 p.2 q.2 hrec (heq ▸ hrec')
    rw [hlogs.file, loadFile_grown m hfile hpairs]
    exact masterSecret_agreed _ hpairs hsame hlogged
  · exact .inl howes.running

def countingSecret : List UInt8 := (List.range' 0x1c 48).map UInt8.ofNat

theorem randomCall_captures (b : UInt8) :
    (randomCall b).Captures (List.replicate 32 b) countingSecret where
  rc := rfl
  key := ⟨countingKey, rfl, by decide +kernel⟩
  random := ⟨List.replicate 32 b, rfl, Nat.le_refl _, rfl⟩
  readable := by
    rintro key hkey
    obtain rfl := Option.some.inj hkey
    decide +kernel

theorem returned_is_read_twoThreads : ∃ s,
    runEvents Hook.step (.attached fun _ => text "# of last year\n") twoThreads = some s ∧
      (KeyMap.loadFile ∅ (s.file .keylog)).masterSecret (List.replicate 32 2) = countingSecret := by
  obtain ⟨s, hs⟩ : ∃ s, runEvents Hook.step (.attached fun _ => text "# of last year\n") twoThreads =
      some s := Option.isSome_iff_exists.mp (by decide +kernel)
  have hgone : (runEvents Hook.step (.attached fun _ => text "# of last year\n") twoThreads).map
      (fun s => (s.thread true).running.isNone) = some true := by decide +kernel
  rw [hs, Option.map_some] at hgone
  have hsecret : ∀ b clientRandom secret, (randomCall b).Records clientRandom secret →
      secret = countingSecret := by
    rintro b clientRandom secret ⟨-, ⟨key, hkey, hread⟩, -⟩
    obtain rfl := Option.some.inj hkey
    exact Option.some.inj (hread.symm.trans (by decide +kernel))
  have hcalls : ∀ x ∈ twoThreads.filterMap HookEvent.call, ∃ b, x.2 = randomCall b := by
    rintro x hx
    have hx : x ∈ [(false, randomCall 1), (true, randomCall 2)] := hx
    simp only [List.mem_cons, List.not_mem_nil, or_false] at hx
    rcases hx with rfl | rfl
    · exact ⟨1, rfl⟩
    · exact ⟨2, rfl⟩
  refine ⟨s, hs, (returned_is_read (t := true)
    (c := randomCall 2) (.inr (by decide)) (by decide +kernel) hs ?_ ?_ (randomCall_captures 2)
    ∅).resolve_left ?_⟩
  · intro x hx y hy clientRandom secret secret' hsec hsec'
    obtain ⟨b, hb⟩ := hcalls x hx
    obtain ⟨b', hb'⟩ := hcalls y hy
    rw [hb] at hsec
    rw [hb'] at hsec'
    exact (hsecret b _ _ hsec).trans (hsecret b' _ _ hsec').symm
  · exact List.mem_append_left _ (List.mem_append_left _
      (List.mem_append_right _ (List.mem_cons_of_mem _ (List.mem_cons_self ..))))
  · intro hrunning
    rw [hrunning] at hgone
    exact absurd hgone (by decide)

end NetDebugger.Tls
