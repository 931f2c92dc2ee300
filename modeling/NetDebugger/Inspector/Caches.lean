import NetDebugger.Inspector
import NetDebugger.Proxy
import NetDebugger.Tls.Complete

/-! The caches of the Inspector against parsing and decrypting again.  Payloads only grow while the
model is not cleared, so that flow and sizes determine them; after a clear, and for the secrets
after another keylog, they do not. -/

namespace NetDebugger

open Lib Http Tls

/-- What the last parse and the last decryption read. -/
structure Watches where
  http : Watch Shown
  dec : Watch Ciphered

def Watches.start : Watches := ⟨.none, .none⟩

/-- The largest payload that a cap admits. -/
def maxPayload : Nat := 2 ^ 64 - 2 ^ 20

def Shown.Grown (x y : Shown) : Prop := x.flowId = y.flowId ∧ x.out <+: y.out ∧ x.inn <+: y.inn

def Ciphered.Grown (x y : Ciphered) : Prop := x.flow.Grown y.flow ∧ x.keylog = y.keylog

/-- The flow is one of the model. -/
def KndModel.Shows (m : KndModel) (x : Shown) : Prop := ∃ id f, m.find id = some f ∧ f.shown = x

def Ui.Shows (u : Ui) (x : Ciphered) : Prop := u.model.Shows x.flow ∧ x.keylog = u.keylog

section

variable (A : Gcm) (H : Hmac) (utf16ToUtf8 : List UInt16 → List UInt8)

/-- What a frame that shows the tab has in its caches. -/
def Ui.Agrees (u : Ui) (tab : Tab) : Prop :=
  ∀ f, u.model.find u.selectedFlow = some f →
    (httpParse (f.payload .outbound) false = some u.http.value.reqs ∧
      httpParse (f.payload .inbound) true = some u.http.value.resps) ∧
    (tab = .decrypted → u.keylogLoaded = true →
      tlsDecryptFlow A H (f.payload .outbound) (f.payload .inbound) (KeyMap.keyLog u.keylog) =
        some u.dec.value.dres ∧
      httpParse u.dec.value.dres.outPlain false = some u.dec.value.dreq ∧
      httpParse u.dec.value.dres.inPlain true = some u.dec.value.dresp)

/-- Every frame of the run shows what parsing and decrypting again would give. -/
def FramesAgree (es : List UiEvent) : Prop :=
  ∀ pre tab u, pre ++ [.frame (some tab)] <+: es →
    runEvents (Ui.step A H utf16ToUtf8) Ui.init (pre ++ [.frame (some tab)]) = some u →
    u.Agrees A H tab

def Watches.after (w : Watches) (u : Ui) : UiEvent → Watches
  | .clear => ⟨w.http.replace, w.dec.replace⟩
  | .loadKeylog _ => { w with dec := w.dec.replace }
  | .frame (some tab) =>
    match u.model.find u.selectedFlow with
    | none => w
    | some f =>
      { http := Memo.watch Shown.parseKey w.http u.http f.shown
        dec := if tab = .decrypted ∧ u.keylogLoaded then
          Memo.watch Ciphered.decryptKey w.dec u.dec ⟨f.shown, u.keylog⟩ else w.dec }
  | _ => w

/-- The frame does not find, behind the key of a cache, a flow that a clear put in the place of
the one parsed, or streams and secrets that a clear or another keylog put in the place of those
decrypted, unless the result is the same. -/
def FreshAt (s : Ui × Watches) : UiEvent → Prop
  | .frame (some tab) => ∀ f, s.1.model.find s.1.selectedFlow = some f →
    Memo.Unharmed Shown.parseKey Shown.parse s.1.http s.2.http f.shown ∧
    (tab = .decrypted → s.1.keylogLoaded = true →
      Memo.Unharmed Ciphered.decryptKey (Ciphered.decrypt A H) s.1.dec s.2.dec ⟨f.shown, s.1.keylog⟩)
  | _ => True

/-! ### What is computed -/

theorem Shown.parse_eq {x : Shown} {v : Parses} : x.parse = some v ↔
    httpParse x.out false = some v.reqs ∧ httpParse x.inn true = some v.resps := by
  constructor
  · intro h
    obtain ⟨reqs, hreqs, h⟩ := Option.bind_eq_some_iff.mp h
    obtain ⟨resps, hresps, h⟩ := Option.bind_eq_some_iff.mp h
    obtain rfl := Option.some.inj h
    exact ⟨hreqs, hresps⟩
  · rintro ⟨hreqs, hresps⟩
    rw [Shown.parse, hreqs, hresps]
    rfl

theorem Ciphered.decrypt_eq {x : Ciphered} {v : Decrypts} : x.decrypt A H = some v ↔
    tlsDecryptFlow A H x.flow.out x.flow.inn (KeyMap.keyLog x.keylog) = some v.dres ∧
      httpParse v.dres.outPlain false = some v.dreq ∧
      httpParse v.dres.inPlain true = some v.dresp := by
  have hempty : ∀ asResponse, httpParse [] asResponse = some [] := fun _ => rfl
  obtain ⟨outRecs, hout⟩ := parseRecords_total x.flow.out
  obtain ⟨inRecs, hin⟩ := parseRecords_total x.flow.inn
  obtain ⟨r, hr, hdir⟩ := tlsDecryptFlow_keys A H hout hin (KeyMap.keyLog x.keylog)
  -- a failure has no plaintexts
  have hfailed : r.ok = false → r.outPlain = [] ∧ r.inPlain = [] := by
    intro hok
    split at hdir
    · exact hdir.2
    · rw [hdir.1] at hok
      cases hok
  rw [Ciphered.decrypt, hr, Option.bind_eq_bind, Option.bind_some]
  cases hok : r.ok with
  | true =>
    simp only [if_true]
    constructor
    · intro h
      obtain ⟨dreq, hdreq, h⟩ := Option.bind_eq_some_iff.mp h
      obtain ⟨dresp, hdresp, h⟩ := Option.bind_eq_some_iff.mp h
      obtain rfl := Option.some.inj h
      exact ⟨rfl, hdreq, hdresp⟩
    · rintro ⟨hv, hdreq, hdresp⟩
      obtain rfl := Option.some.inj hv
      rw [hdreq, hdresp]
      rfl
  | false =>
    obtain ⟨hplain, hplain'⟩ := hfailed hok
    simp only [Bool.false_eq_true, if_false, Option.some.injEq]
    constructor
    · rintro rfl
      exact ⟨rfl, by rw [hplain, hempty], by rw [hplain', hempty]⟩
    · obtain ⟨dres, dreq, dresp⟩ := v
      rintro ⟨rfl, hdreq, hdresp⟩
      rw [hplain, hempty] at hdreq
      rw [hplain', hempty] at hdresp
      obtain rfl := Option.some.inj hdreq
      obtain rfl := Option.some.inj hdresp
      rfl

theorem Shown.parse_total (x : Shown) : ∃ v, x.parse = some v := by
  obtain ⟨reqs, hreqs, -⟩ := httpParse_total x.out false
  obtain ⟨resps, hresps, -⟩ := httpParse_total x.inn true
  exact ⟨⟨reqs, resps⟩, Shown.parse_eq.mpr ⟨hreqs, hresps⟩⟩

theorem Ciphered.decrypt_total (x : Ciphered) : ∃ v, x.decrypt A H = some v := by
  obtain ⟨dres, hdres⟩ := tlsDecryptFlow_total A H x.flow.out x.flow.inn (KeyMap.keyLog x.keylog)
  obtain ⟨dreq, hdreq, -⟩ := httpParse_total dres.outPlain false
  obtain ⟨dresp, hdresp, -⟩ := httpParse_total dres.inPlain true
  exact ⟨⟨dres, dreq, dresp⟩, (Ciphered.decrypt_eq A H).mpr ⟨hdres, hdreq, hdresp⟩⟩

theorem Ui.agrees_iff (u : Ui) (tab : Tab) : u.Agrees A H tab ↔
    ∀ f, u.model.find u.selectedFlow = some f → f.shown.parse = some u.http.value ∧
      (tab = .decrypted → u.keylogLoaded = true →
        Ciphered.decrypt A H ⟨f.shown, u.keylog⟩ = some u.dec.value) := by
  refine forall₂_congr fun f _ => and_congr (@Shown.parse_eq f.shown u.http.value).symm ?_
  refine imp_congr_right fun _ => imp_congr_right fun _ => ?_
  exact (@Ciphered.decrypt_eq A H ⟨f.shown, u.keylog⟩ u.dec.value).symm

/-! ### What the model does to payloads -/

theorem KndFlow.on_payload (f : KndFlow) (cap : Nat) (p : Nat → UInt8) (now : Nat) (d : Dir) :
    f.payload d <+: (f.on utf16ToUtf8 cap p now).payload d ∧
      ((f.on utf16ToUtf8 cap p now).payload d).length ≤ max (f.payload d).length cap := by
  have hsame : f.payload d <+: f.payload d ∧ (f.payload d).length ≤ max (f.payload d).length cap :=
    ⟨List.prefix_refl _, Nat.le_max_left ..⟩
  simp only [KndFlow.on]
  split
  · exact hsame
  split
  · exact hsame
  split
  · generalize KndDataPayload.read (fun i => p (sizeofKndRecord + i)) = dp
    simp only [KndFlow.onData]
    by_cases hd : d = Dir.of dp.direction
    · subst hd
      rw [Function.update_self]
      split
      · refine ⟨List.prefix_append _ _, ?_⟩
        rw [List.length_append, readBytes_length]
        omega
      · exact hsame
    · rw [Function.update_of_ne hd]
      exact hsame
  · exact hsame

variable {utf16ToUtf8}

theorem KndFlow.on_grown (f : KndFlow) (cap : Nat) (p : Nat → UInt8) (now : Nat) :
    f.shown.Grown (f.on utf16ToUtf8 cap p now).shown :=
  ⟨(f.on_flowId utf16ToUtf8 cap p now).symm, (f.on_payload utf16ToUtf8 cap p now .outbound).1,
    (f.on_payload utf16ToUtf8 cap p now .inbound).1⟩

def Shown.Small (x : Shown) : Prop := x.out.length ≤ maxPayload ∧ x.inn.length ≤ maxPayload

theorem KndFlow.on_small {f : KndFlow} (hf : f.shown.Small) {cap : Nat} (hcap : cap ≤ maxPayload)
    (p : Nat → UInt8) (now : Nat) : (f.on utf16ToUtf8 cap p now).shown.Small :=
  ⟨Nat.le_trans (f.on_payload utf16ToUtf8 cap p now .outbound).2 (Nat.max_le.mpr ⟨hf.1, hcap⟩),
    Nat.le_trans (f.on_payload utf16ToUtf8 cap p now .inbound).2 (Nat.max_le.mpr ⟨hf.2, hcap⟩)⟩

theorem Shown.grown_refl (x : Shown) : x.Grown x :=
  ⟨rfl, List.prefix_refl _, List.prefix_refl _⟩

theorem Shown.grown_trans (x y z : Shown) (hxy : x.Grown y) (hyz : y.Grown z) : x.Grown z :=
  ⟨hxy.1.trans hyz.1, hxy.2.1.trans hyz.2.1, hxy.2.2.trans hyz.2.2⟩

/-- A record makes its flow grow and leaves the others. -/
theorem KndModel.ingest_grows {m : KndModel} (hm : m.WellFormed) (p : Nat → UInt8) (now : Nat)
    {x : Shown} (hx : m.Shows x) :
    ∃ y, (m.ingest utf16ToUtf8 p now).Shows y ∧ x.Grown y := by
  obtain ⟨id, f, hf, rfl⟩ := hx
  cases hflow : recordFlow p with
  | none =>
    refine ⟨f.shown, ⟨id, f, ?_, rfl⟩, f.shown.grown_refl⟩
    rw [m.ingest_other utf16ToUtf8 now hflow]
    exact hf
  | some k =>
    obtain ⟨-, hown, hother⟩ := m.ingest_updated utf16ToUtf8 hm now hflow
    by_cases hid : id = k
    · subst hid
      rw [hf] at hown
      exact ⟨_, ⟨id, _, hown, rfl⟩, f.on_grown m.payloadCap p now⟩
    · exact ⟨f.shown, ⟨id, f, (hother id hid).trans hf, rfl⟩, f.shown.grown_refl⟩

theorem KndModel.ingest_small {m : KndModel} (hm : m.WellFormed) (hcap : m.payloadCap ≤ maxPayload)
    (hsmall : ∀ x, m.Shows x → x.Small) (p : Nat → UInt8) (now : Nat) :
    ∀ x, (m.ingest utf16ToUtf8 p now).Shows x → x.Small := by
  rintro x ⟨id, f, hf, rfl⟩
  cases hflow : recordFlow p with
  | none =>
    rw [m.ingest_other utf16ToUtf8 now hflow] at hf
    exact hsmall _ ⟨id, f, hf, rfl⟩
  | some k =>
    obtain ⟨-, hown, hother⟩ := m.ingest_updated utf16ToUtf8 hm now hflow
    by_cases hid : id = k
    · subst hid
      obtain rfl := Option.some.inj (hown.symm.trans hf)
      apply KndFlow.on_small _ hcap
      cases hfind : m.find id with
      | none => exact ⟨Nat.zero_le _, Nat.zero_le _⟩
      | some g => exact hsmall _ ⟨id, g, hfind, rfl⟩
    · rw [hother id hid] at hf
      exact hsmall _ ⟨id, f, hf, rfl⟩

theorem Shown.Small.parseKey {x : Shown} (h : x.Small) : x.parseKey ≠ ParseKey.unused := by
  intro hkey
  have hout := h.1
  have hsize := congrArg ParseKey.cOut hkey
  simp only [Shown.parseKey, ParseKey.unused, maxPayload, sizeMax] at hout hsize
  omega

theorem Shown.Small.decryptKey {x : Shown} (h : x.Small) (keylog : KeyMap) :
    Ciphered.decryptKey ⟨x, keylog⟩ ≠ DecryptKey.unused := by
  intro hkey
  have hout := h.1
  have hsize := congrArg DecryptKey.dOut hkey
  simp only [Ciphered.decryptKey, DecryptKey.unused, maxPayload, sizeMax] at hout hsize
  omega

/-- The flow id and the sizes determine a flow among the states it has grown through. -/
theorem KndModel.keyed {m : KndModel} (hm : m.WellFormed) (hsmall : ∀ x, m.Shows x → x.Small) :
    Memo.Keyed Shown.parseKey Shown.Grown ParseKey.unused m.Shows := by
  constructor
  case used =>
    intro x hx
    exact (hsmall x hx).parseKey
  case only =>
    rintro x y z ⟨hflow, hout, hin⟩ ⟨id, f, hf, rfl⟩ ⟨id', g, hg, rfl⟩ hkey
    have hid : f.flowId = id := hm.key_of_find hf
    have hid' : g.flowId = id' := hm.key_of_find hg
    have hflow' : g.flowId = x.flowId := congrArg ParseKey.cFlow hkey
    have hsame : f = g := by
      have heq : id = id' := by rw [← hid, ← hid', hflow']; exact hflow.symm
      rw [heq, hg] at hf
      exact (Option.some.inj hf).symm
    subst hsame
    have heout : x.out = f.shown.out := hout.eq_of_length (congrArg ParseKey.cOut hkey).symm
    have hein : x.inn = f.shown.inn := hin.eq_of_length (congrArg ParseKey.cIn hkey).symm
    obtain ⟨flowId, out, inn⟩ := x
    simp only at hflow heout hein
    rw [hflow, heout, hein]

theorem Ui.keyed {u : Ui} (hm : u.model.WellFormed) (hsmall : ∀ x, u.model.Shows x → x.Small) :
    Memo.Keyed Ciphered.decryptKey Ciphered.Grown DecryptKey.unused u.Shows := by
  have hflow := KndModel.keyed hm hsmall
  constructor
  case used =>
    intro x hx
    exact (hsmall x.flow hx.1).decryptKey x.keylog
  case only =>
    rintro x y z ⟨hgrown, hkeys⟩ ⟨hy, hykeys⟩ ⟨hz, hzkeys⟩ hkey
    have hparse : z.flow.parseKey = x.flow.parseKey := by
      simp only [Ciphered.decryptKey, DecryptKey.mk.injEq] at hkey
      simp only [Shown.parseKey, hkey.1, hkey.2.1, hkey.2.2.1]
    have hsame := hflow.only x.flow y.flow z.flow hgrown hy hz hparse
    obtain ⟨flow, keylog⟩ := z
    obtain ⟨flow', keylog'⟩ := x
    simp only at hsame hkeys hykeys hzkeys
    rw [hsame, hzkeys, hkeys, hykeys]

/-! ### Runs -/

variable (utf16ToUtf8)

/-- Bounded payloads, and caches that hold what they were last computed from. -/
structure Inspected (u : Ui) (w : Watches) : Prop where
  wellFormed : u.model.WellFormed
  cap : u.model.payloadCap ≤ maxPayload
  small : ∀ x, u.model.Shows x → x.Small
  http : Memo.Sound Shown.parseKey Shown.parse Shown.Grown ParseKey.unused u.model.Shows u.http
    w.http
  dec : Memo.Sound Ciphered.decryptKey (Ciphered.decrypt A H) Ciphered.Grown DecryptKey.unused
    u.Shows u.dec w.dec

theorem Ciphered.grown_refl (x : Ciphered) : x.Grown x := ⟨x.flow.grown_refl, rfl⟩

theorem Ciphered.grown_trans (x y z : Ciphered) (hxy : x.Grown y) (hyz : y.Grown z) : x.Grown z :=
  ⟨Shown.grown_trans _ _ _ hxy.1 hyz.1, hxy.2.trans hyz.2⟩

theorem inspected_init : Inspected A H Ui.init Watches.start := by
  constructor
  case wellFormed => exact Indexed.wf_empty
  case cap => decide
  case small =>
    rintro x ⟨id, f, hf, -⟩
    cases hf
  case http => exact Memo.sound_unused _
  case dec => exact Memo.sound_unused _

variable {A H}

theorem Inspected.ingest {u : Ui} {w : Watches} (h : Inspected A H u w) (p : Nat → UInt8)
    (now : Nat) : Inspected A H { u with model := u.model.ingest utf16ToUtf8 p now } w := by
  have hgrows := fun x => @KndModel.ingest_grows utf16ToUtf8 u.model h.wellFormed p now x
  constructor
  case wellFormed =>
    cases hflow : recordFlow p with
    | none =>
      show (u.model.ingest utf16ToUtf8 p now).WellFormed
      rw [u.model.ingest_other utf16ToUtf8 now hflow]
      exact h.wellFormed
    | some k => exact (u.model.ingest_updated utf16ToUtf8 h.wellFormed now hflow).1
  case cap => simpa using h.cap
  case small => exact KndModel.ingest_small h.wellFormed h.cap h.small p now
  case http => exact h.http.grow Shown.grown_trans hgrows
  case dec =>
    refine h.dec.grow Ciphered.grown_trans ?_
    rintro x ⟨hx, hkeys⟩
    obtain ⟨y, hy, hxy⟩ := hgrows x.flow hx
    exact ⟨⟨y, x.keylog⟩, ⟨hy, hkeys⟩, hxy, rfl⟩

theorem Inspected.clear {u : Ui} {w : Watches} (h : Inspected A H u w) :
    Inspected A H { u with model := u.model.clear } ⟨w.http.replace, w.dec.replace⟩ := by
  constructor
  case wellFormed => exact Indexed.wf_empty
  case cap => exact h.cap
  case small =>
    rintro x ⟨id, f, hf, -⟩
    cases hf
  case http => exact h.http.replace _
  case dec => exact h.dec.replace _

theorem capBytes_le (mb : Int) : capBytes mb ≤ maxPayload := by
  have hmod : mb * 2 ^ 20 % 2 ^ 64 ≤ 2 ^ 64 - 2 ^ 20 := by omega
  rw [capBytes, maxPayload]
  omega

/-- A frame refreshes the cache of the parses, and that of the decryption where its tab is open. -/
theorem drawInspector_cases {u u' : Ui} {tab : Tab} {f : KndFlow}
    (hf : u.model.find u.selectedFlow = some f) (h : drawInspector A H u tab = some u') :
    ∃ http, u.http.refresh Shown.parseKey Shown.parse f.shown = some http ∧
      ((tab = .decrypted ∧ u.keylogLoaded = true ∧ ∃ dec,
        u.dec.refresh Ciphered.decryptKey (Ciphered.decrypt A H) ⟨f.shown, u.keylog⟩ = some dec ∧
          u' = { u with http, dec }) ∨
        ¬(tab = .decrypted ∧ u.keylogLoaded = true) ∧ u' = { u with http }) := by
  simp only [drawInspector, hf] at h
  obtain ⟨http, hhttp, h⟩ := Option.bind_eq_some_iff.mp h
  refine ⟨http, hhttp, ?_⟩
  split at h
  · next htab =>
    obtain ⟨dec, hdec, h⟩ := Option.bind_eq_some_iff.mp h
    exact .inl ⟨htab.1, htab.2, dec, hdec, (Option.some.inj h).symm⟩
  · next htab => exact .inr ⟨htab, (Option.some.inj h).symm⟩

theorem Inspected.frame {u u' : Ui} {w : Watches} (h : Inspected A H u w) {tab : Tab}
    (hu : drawInspector A H u tab = some u') :
    Inspected A H u' (w.after u (.frame (some tab))) := by
  cases hfind : u.model.find u.selectedFlow with
  | none =>
    simp only [drawInspector, hfind] at hu
    simp only [Watches.after, hfind]
    exact Option.some.inj hu ▸ h
  | some f =>
    simp only [Watches.after, hfind]
    have hshows : u.model.Shows f.shown := ⟨_, f, hfind, rfl⟩
    obtain ⟨http, hhttp, ⟨htab, hloaded, dec, hdec, rfl⟩ | ⟨htab, rfl⟩⟩ :=
      drawInspector_cases hfind hu
    · refine ⟨h.wellFormed, h.cap, h.small, h.http.refresh Shown.grown_refl hshows hhttp, ?_⟩
      rw [if_pos ⟨htab, hloaded⟩]
      exact h.dec.refresh Ciphered.grown_refl ⟨hshows, rfl⟩ hdec
    · refine ⟨h.wellFormed, h.cap, h.small, h.http.refresh Shown.grown_refl hshows hhttp, ?_⟩
      rw [if_neg htab]
      exact h.dec

theorem Inspected.step {u u' : Ui} {w : Watches} (h : Inspected A H u w) {e : UiEvent}
    (hu : u.step A H utf16ToUtf8 e = some u') : Inspected A H u' (w.after u e) := by
  cases e with
  | ingest p now =>
    obtain rfl := Option.some.inj hu
    exact h.ingest utf16ToUtf8 p now
  | clear =>
    obtain rfl := Option.some.inj hu
    exact h.clear
  | select flowId =>
    obtain rfl := Option.some.inj hu
    exact ⟨h.wellFormed, h.cap, h.small, h.http, h.dec⟩
  | loadKeylog contents =>
    obtain rfl := Option.some.inj hu
    exact ⟨h.wellFormed, h.cap, h.small, h.http, h.dec.replace _⟩
  | payloadCap mb =>
    obtain rfl := Option.some.inj hu
    exact ⟨h.wellFormed, capBytes_le mb, h.small, h.http, h.dec⟩
  | frame tab =>
    cases tab with
    | none => exact Option.some.inj hu ▸ h
    | some tab => exact h.frame hu

/-- A frame is always drawn. -/
theorem drawInspector_total (u : Ui) (tab : Tab) : ∃ u', drawInspector A H u tab = some u' := by
  rw [drawInspector]
  cases u.model.find u.selectedFlow with
  | none => exact ⟨u, rfl⟩
  | some f =>
    obtain ⟨http, hhttp⟩ := u.http.refresh_total Shown.parseKey f.shown.parse_total
    obtain ⟨dec, hdec⟩ := u.dec.refresh_total Ciphered.decryptKey
      (Ciphered.decrypt_total A H ⟨f.shown, u.keylog⟩)
    simp only [hhttp, hdec, Option.bind_eq_bind, Option.bind_some]
    split
    · exact ⟨_, rfl⟩
    · exact ⟨_, rfl⟩

/-- A frame shows what is computed again exactly where it is fresh. -/
theorem Inspected.frame_iff {u : Ui} {w : Watches} (h : Inspected A H u w) (tab : Tab) :
    (∀ u', u.step A H utf16ToUtf8 (.frame (some tab)) = some u' → u'.Agrees A H tab) ↔
      FreshAt A H (u, w) (.frame (some tab)) := by
  obtain ⟨u', hu'⟩ := @drawInspector_total A H u tab
  have hone : (∀ u', u.step A H utf16ToUtf8 (.frame (some tab)) = some u' → u'.Agrees A H tab) ↔
      u'.Agrees A H tab := by
    constructor
    · exact fun hall => hall u' hu'
    · intro hagrees v hv
      obtain rfl := Option.some.inj (hu'.symm.trans hv)
      exact hagrees
  rw [hone, Ui.agrees_iff, FreshAt]
  cases hfind : u.model.find u.selectedFlow with
  | none =>
    simp only [drawInspector, hfind] at hu'
    obtain rfl := Option.some.inj hu'
    simp [hfind]
  | some f =>
    have hshows : u.model.Shows f.shown := ⟨_, f, hfind, rfl⟩
    have hkeyed := KndModel.keyed h.wellFormed h.small
    have hkeyed' := Ui.keyed h.wellFormed h.small
    obtain ⟨http, hhttp, ⟨htab, hloaded, dec, hdec, rfl⟩ | ⟨htab, rfl⟩⟩ :=
      drawInspector_cases hfind hu'
    · have hparse := h.http.agrees_iff hkeyed hshows hhttp
      have hdecrypt := h.dec.agrees_iff hkeyed' (x := ⟨f.shown, u.keylog⟩) ⟨hshows, rfl⟩ hdec
      simp only [hfind, Option.some.injEq, forall_eq', hparse, htab, hloaded, hdecrypt]
    · have hparse := h.http.agrees_iff hkeyed hshows hhttp
      have hclosed : ∀ P : Prop, (tab = .decrypted → u.keylogLoaded = true → P) ↔ True := fun P =>
        iff_true_intro fun ht hl => absurd ⟨ht, hl⟩ htab
      simp only [hfind, Option.some.injEq, forall_eq', hparse, hclosed]

/-- Every frame shows what parsing and decrypting again would give exactly where every frame is
fresh. -/
theorem framesAgree_iff (A : Gcm) (H : Hmac) (utf16ToUtf8 : List UInt16 → List UInt8)
    (es : List UiEvent) : FramesAgree A H utf16ToUtf8 es ↔
      EachStep (withHistory (Ui.step A H utf16ToUtf8) Watches.after) (FreshAt A H)
        (Ui.init, Watches.start) es := by
  let Shows : Ui → UiEvent → Prop := fun u e => ∀ tab, e = .frame (some tab) →
    ∀ u', u.step A H utf16ToUtf8 e = some u' → u'.Agrees A H tab
  have hframes : FramesAgree A H utf16ToUtf8 es ↔
      EachStep (Ui.step A H utf16ToUtf8) Shows Ui.init es := by
    rw [eachStep_iff]
    constructor
    · rintro h pre e u hpre hu tab rfl u' hu'
      exact h pre tab u' hpre (runEvents_append.mpr ⟨u, hu, runEvents_cons.mpr ⟨u', hu', rfl⟩⟩)
    · intro h pre tab u' hpre hrun
      obtain ⟨u, hu, hlast⟩ := runEvents_append.mp hrun
      obtain ⟨v, hv, hend⟩ := runEvents_cons.mp hlast
      obtain rfl := Option.some.inj hend
      exact h pre _ u hpre hu tab rfl v hv
  rw [hframes, ← eachStep_withHistory Watches.after Ui.init Watches.start]
  refine eachStep_congr (fun s => Inspected A H s.1 s.2) ?_ ?_ (inspected_init A H) es
  · rintro ⟨u, w⟩ e ⟨v, x⟩ hinv hstep
    obtain ⟨u', hu', heq⟩ := Option.map_eq_some_iff.mp hstep
    obtain ⟨rfl, rfl⟩ := Prod.mk.inj heq
    exact hinv.step utf16ToUtf8 hu'
  · rintro ⟨u, w⟩ e hinv
    cases e with
    | frame tab =>
      cases tab with
      | none => exact iff_of_true nofun trivial
      | some tab =>
        rw [← hinv.frame_iff utf16ToUtf8 tab]
        constructor
        · exact fun h => h tab rfl
        · rintro h tab' heq
          obtain rfl := Option.some.inj (UiEvent.frame.inj heq)
          exact h
    | _ => exact iff_of_true nofun trivial

end

/-! ### A flow that comes back -/

def request (target : String) : List UInt8 :=
  text "GET " ++ text target ++ text " HTTP/1.1\r\n\r\n"

def requestRecord (target : String) : Nat → UInt8 :=
  pointer (Proxy.buildData 5 kndDirOutbound (request target) 0)

/-- The flow 5 is shown, the model is cleared, and the flow goes on with a request of the same
size. -/
def reusedFlow : List UiEvent :=
  [.ingest (requestRecord "/a") 0, .select 5, .frame (some .http), .clear,
    .ingest (requestRecord "/b") 0, .frame (some .http)]

/-- The flow after its first record. -/
def firstRequest (target : String) : KndFlow :=
  (KndFlow.new 5 0).on (fun _ => []) (4 * 1024 * 1024) (requestRecord target) 0

theorem find_firstRequest {m : KndModel} (hm : m.WellFormed) (hfind : m.find 5 = none)
    (hcap : m.payloadCap = 4 * 1024 * 1024) {target : String}
    (hflow : recordFlow (requestRecord target) = some 5) :
    (m.ingest (fun _ => []) (requestRecord target) 0).find 5 = some (firstRequest target) := by
  have hown := (m.ingest_updated (fun _ => []) hm 0 hflow).2.1
  rw [hfind, hcap] at hown
  exact hown

theorem drawInspector_http {A : Gcm} {H : Hmac} {u : Ui} {f : KndFlow}
    (hf : u.model.find u.selectedFlow = some f) : drawInspector A H u .http =
      (u.http.refresh Shown.parseKey Shown.parse f.shown).map fun http => { u with http } := by
  simp only [drawInspector, hf]
  cases u.http.refresh Shown.parseKey Shown.parse f.shown with
  | none => rfl
  | some http => rfl

theorem reusedFlow_stale : ¬∀ es, FramesAgree sumGcm cutHmac (fun _ => []) es := by
  intro h
  have hflow : recordFlow (requestRecord "/a") = some 5 ∧ recordFlow (requestRecord "/b") = some 5 := by
    decide +kernel
  have hshown : (firstRequest "/a").shown = ⟨5, request "/a", []⟩ ∧
      (firstRequest "/b").shown = ⟨5, request "/b", []⟩ := by decide +kernel
  have hparse : (Shown.parse ⟨5, request "/a", []⟩).map (fun v => v.reqs.map HttpMessage.target) =
      some [text "/a"] := by decide +kernel
  have hfresh : (httpParse (request "/b") false).map (List.map HttpMessage.target) =
      some [text "/b"] := by decide +kernel
  obtain ⟨v, hv, htarget⟩ := Option.map_eq_some_iff.mp hparse
  let m := Ui.init.model.ingest (fun _ => []) (requestRecord "/a") 0
  let m' := m.clear.ingest (fun _ => []) (requestRecord "/b") 0
  let u : Ui := { Ui.init with model := m, selectedFlow := 5 }
  let cache : Memo ParseKey Parses := ⟨Shown.parseKey ⟨5, request "/a", []⟩, v⟩
  have hfirst : u.model.find u.selectedFlow = some (firstRequest "/a") :=
    @find_firstRequest Ui.init.model Indexed.wf_empty rfl rfl "/a" hflow.1
  have hlast : m'.find 5 = some (firstRequest "/b") :=
    @find_firstRequest m.clear Indexed.wf_empty rfl
      (Ui.init.model.ingest_payloadCap (fun _ => []) (requestRecord "/a") 0) "/b" hflow.2
  have hfill : u.http.refresh Shown.parseKey Shown.parse (firstRequest "/a").shown = some cache := by
    rw [hshown.1, Memo.refresh, if_pos (by decide), hv]
    rfl
  -- the sizes are those of the first request
  have hkeep : cache.refresh Shown.parseKey Shown.parse (firstRequest "/b").shown = some cache := by
    have hkey : Shown.parseKey ⟨5, request "/b", []⟩ = Shown.parseKey ⟨5, request "/a", []⟩ := by
      decide
    rw [hshown.2, Memo.refresh, if_neg (not_not.mpr hkey)]
  have hrun : runEvents (Ui.step sumGcm cutHmac fun _ => []) Ui.init reusedFlow =
      some { u with model := m', http := cache } := by
    refine runEvents_cons.mpr ⟨_, rfl, runEvents_cons.mpr ⟨u, rfl, runEvents_cons.mpr
      ⟨{ u with http := cache }, ?_, runEvents_cons.mpr ⟨_, rfl, runEvents_cons.mpr
        ⟨{ u with model := m', http := cache }, rfl, runEvents_cons.mpr ⟨_, ?_, rfl⟩⟩⟩⟩⟩⟩
    · show drawInspector sumGcm cutHmac u .http = _
      rw [drawInspector_http hfirst, hfill, Option.map_some]
    · show drawInspector sumGcm cutHmac { u with model := m', http := cache } .http = _
      rw [drawInspector_http hlast, hkeep, Option.map_some]
  have hagree := h reusedFlow (reusedFlow.take 5) .http _ (List.prefix_refl _) hrun _ hlast
  have hpayload : (firstRequest "/b").payload .outbound = request "/b" :=
    congrArg Shown.out hshown.2
  rw [← hpayload, hagree.1.1, Option.map_some] at hfresh
  have hsame : [text "/a"] = [text "/b"] := htarget.symm.trans (Option.some.inj hfresh)
  exact absurd hsame (by decide)

end NetDebugger
