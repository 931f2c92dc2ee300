import NetDebugger.Inspector.Sides
import NetDebugger.Model.Holds

/-! Any frame of a run.  Whatever the program has drawn before, and in whatever order the user goes
about it, a fresh frame shows what the payloads of the selected flow parse and decrypt to, and these
are the streams of a connection that no cap was too small for. -/

namespace NetDebugger

open Lib Http Tls Capture Pipeline Accounting

/-- What is left of a run: what the caches were computed from, the records since the last clear, and
the least cap that one of them was taken under. -/
structure Trail where
  watches : Watches
  records : List (Nat → UInt8)
  least : Nat

def Trail.start : Trail := ⟨.start, [], maxPayload⟩

def Trail.after (x : Trail) (u : Ui) (e : UiEvent) : Trail :=
  match e with
  | .ingest p _ =>
    { watches := x.watches.after u e
      records := x.records ++ [p]
      least := min x.least u.model.payloadCap }
  | .clear => ⟨x.watches.after u e, [], maxPayload⟩
  | _ => { x with watches := x.watches.after u e }

@[simp] theorem Trail.after_watches (x : Trail) (u : Ui) (e : UiEvent) :
    (x.after u e).watches = x.watches.after u e := by
  cases e <;> rfl

section

variable (utf8ToUtf16 : List UInt8 → List UInt16)

/-- The records are those of a connection with these streams, captured at the end `here`, among
whatever else the driver and the proxy emitted. -/
inductive Arrived (here : Party) (streams : Party → List UInt8) :
    UInt64 → List (Nat → UInt8) → Prop
  | intro {f : FlowFields} {next : UInt64} {x : List Segment} {deleted : Bool} {es : List Emission}
      (ok : ∀ e ∈ es, e.Ok)
      (own : (es.map fun e => e.record utf8ToUtf16).filter
          (fun r => r.flowId = (openPayload f next).flowId) =
        (captureCalls here f next x deleted).map Source.record)
      (same : ∀ p, sentBy p x = streams p) :
      Arrived here streams (openPayload f next).flowId
        (es.map fun e => pointer (e.bytes utf8ToUtf16))

end

section

variable {A : Gcm} {H : Hmac} {utf8ToUtf16 : List UInt8 → List UInt16}
  {utf16ToUtf8 : List UInt16 → List UInt8} {u u' : Ui} {w : Watches} {t : Trail} {es : List UiEvent}

/-! ### One frame -/

/-- A frame changes nothing but the caches. -/
theorem drawInspector_keeps {tab : Tab} (h : drawInspector A H u tab = some u') :
    u'.model = u.model ∧ u'.selectedFlow = u.selectedFlow ∧ u'.keylog = u.keylog ∧
      u'.keylogLoaded = u.keylogLoaded := by
  cases hfind : u.model.find u.selectedFlow with
  | none =>
    simp only [drawInspector, hfind] at h
    exact Option.some.inj h ▸ ⟨rfl, rfl, rfl, rfl⟩
  | some f =>
    obtain ⟨http, -, ⟨-, -, dec, -, rfl⟩ | ⟨-, rfl⟩⟩ := drawInspector_cases hfind h
    · exact ⟨rfl, rfl, rfl, rfl⟩
    · exact ⟨rfl, rfl, rfl, rfl⟩

/-- What a fresh frame has in its caches is what parsing and decrypting again would give. -/
theorem Inspected.draws (h : Inspected A H u w) {tab : Tab}
    (hfresh : FreshAt A H (u, w) (.frame (some tab))) {f : KndFlow}
    (hf : u.model.find u.selectedFlow = some f) :
    ∃ u', drawInspector A H u tab = some u' ∧ f.shown.parse = some u'.http.value ∧
      (tab = .decrypted → u.keylogLoaded = true →
        Ciphered.decrypt A H ⟨f.shown, u.keylog⟩ = some u'.dec.value) := by
  obtain ⟨u', hu'⟩ := @drawInspector_total A H u tab
  have hagrees := (h.frame_iff (fun _ => []) tab).mpr hfresh u' hu'
  obtain ⟨hmodel, hselected, hkeylog, hloaded⟩ := drawInspector_keeps hu'
  rw [Ui.agrees_iff, hmodel, hselected, hkeylog, hloaded] at hagrees
  exact ⟨u', hu', hagrees f hf⟩

/-- A fresh frame shows what a first frame would show, whatever is in the caches. -/
theorem Inspected.inspects (h : Inspected A H u w) {tab : Tab}
    (hfresh : FreshAt A H (u, w) (.frame (some tab))) {f : KndFlow}
    (hf : u.model.find u.selectedFlow = some f) :
    ∃ u' dec, drawInspector A H u tab = some u' ∧
      inspect A H u.model u.selectedFlow u.keylog = some (u'.http.value, dec) ∧
      (tab = .decrypted → u.keylogLoaded = true → dec = u'.dec.value) := by
  obtain ⟨u', hu', hparse, hdecrypt⟩ := h.draws hfresh hf
  obtain ⟨dec, hdec⟩ := Ciphered.decrypt_total A H ⟨f.shown, u.keylog⟩
  have hsmall : f.shown.Small := h.small _ ⟨u.selectedFlow, f, hf, rfl⟩
  refine ⟨u', dec, hu', ?_, fun htab hloaded => ?_⟩
  · rw [inspect_eq A H hf hsmall, hparse, Option.bind_some, hdec, Option.map_some]
  · exact Option.some.inj (hdec.symm.trans (hdecrypt htab hloaded))

/-- Without a clear since the last parse, a frame of the HTTP tab is fresh. -/
theorem freshAt_http (h : w.http.replaced = false) :
    FreshAt A H (u, w) (.frame (some .http)) := by
  intro f _
  refine ⟨fun hreplaced => ?_, fun htab => ?_⟩
  · rw [h] at hreplaced
    contradiction
  · contradiction

/-- A first frame of the Decrypted tab is fresh, without a clear since the last parse. -/
theorem freshAt_decrypted (h : w.http.replaced = false) (hfirst : w.dec.last = none) :
    FreshAt A H (u, w) (.frame (some .decrypted)) := by
  intro f hf
  refine ⟨((freshAt_http (A := A) (H := H) h) f hf).1, fun _ _ _ _ x hx => ?_⟩
  rw [hfirst] at hx
  contradiction

/-! ### Runs -/

theorem run_inspected (hrun : runEvents (withHistory (Ui.step A H utf16ToUtf8) Trail.after)
    (Ui.init, Trail.start) es = some (u, t)) : Inspected A H u t.watches := by
  have hstep (x : Ui × Trail) (e : UiEvent) (y : Ui × Trail) (_ : True)
      (hx : Inspected A H x.1 x.2.watches)
      (hy : withHistory (Ui.step A H utf16ToUtf8) Trail.after x e = some y) :
      Inspected A H y.1 y.2.watches := by
    obtain ⟨v, hv, rfl⟩ := Option.map_eq_some_iff.mp hy
    rw [Trail.after_watches]
    exact hx.step utf16ToUtf8 hv
  exact runEvents_invariant (fun _ => True) hstep (inspected_init A H) (fun _ _ => trivial) hrun

/-- The keylog counts as loaded where it has a secret. -/
theorem run_keylogLoaded (hrun : runEvents (withHistory (Ui.step A H utf16ToUtf8) Trail.after)
    (Ui.init, Trail.start) es = some (u, t)) :
    u.keylogLoaded = decide (KeyMap.size u.keylog > 0) := by
  have hstep (u : Ui) (e : UiEvent) (u' : Ui) (_ : True)
      (hu : u.keylogLoaded = decide (KeyMap.size u.keylog > 0))
      (hstep : u.step A H utf16ToUtf8 e = some u') :
      u'.keylogLoaded = decide (KeyMap.size u'.keylog > 0) := by
    cases e with
    | frame tab =>
      cases tab with
      | none => exact Option.some.inj hstep ▸ hu
      | some tab =>
        obtain ⟨-, -, hkeylog, hloaded⟩ := drawInspector_keeps hstep
        rw [hkeylog, hloaded]
        exact hu
    | loadKeylog contents => exact Option.some.inj hstep ▸ rfl
    | _ => exact Option.some.inj hstep ▸ hu
  exact runEvents_invariant (fun _ => True) hstep rfl (fun _ _ => trivial)
    (runEvents_of_withHistory hrun)

/-- The model holds the records since the last clear, whatever cap each was taken under. -/
theorem run_holds (hrun : runEvents (withHistory (Ui.step A H utf16ToUtf8) Trail.after)
    (Ui.init, Trail.start) es = some (u, t)) : u.model.Holds t.least t.records := by
  have hstep (x : Ui × Trail) (e : UiEvent) (y : Ui × Trail) (_ : True)
      (hx : x.1.model.Holds x.2.least x.2.records)
      (hy : withHistory (Ui.step A H utf16ToUtf8) Trail.after x e = some y) :
      y.1.model.Holds y.2.least y.2.records := by
    obtain ⟨v, hv, rfl⟩ := Option.map_eq_some_iff.mp hy
    cases e with
    | ingest p now =>
      obtain rfl := Option.some.inj hv
      exact (hx.mono (Nat.min_le_left ..)).ingest (Nat.min_le_right ..) p now
    | clear =>
      obtain rfl := Option.some.inj hv
      exact holds_empty maxPayload x.1.model.payloadCap x.1.model.packetCap
    | payloadCap mb =>
      obtain rfl := Option.some.inj hv
      exact hx.recap (capBytes mb)
    | frame tab =>
      cases tab with
      | none => exact Option.some.inj hv ▸ hx
      | some tab =>
        have hmodel := (drawInspector_keeps hv).1
        show v.model.Holds _ _
        rw [hmodel]
        exact hx
    | _ => exact Option.some.inj hv ▸ hx
  exact runEvents_invariant (fun _ => True) hstep (holds_empty _ _ _) (fun _ _ => trivial) hrun

/-- Each payload of the flow that has arrived is what was captured of one end, where no cap was too
small for it. -/
theorem Arrived.payload {here : Party} {streams : Party → List UInt8} {id : UInt64}
    {records : List (Nat → UInt8)} (h : Arrived utf8ToUtf16 here streams id records) {least : Nat}
    {m : KndModel} (hm : m.Holds least records) (hcap : ∀ p, (streams p).length ≤ least) :
    ∃ f, m.find id = some f ∧ ∀ p, f.payload (here.dir p) = streams p := by
  obtain @⟨f, next, x, deleted, es, hok, hown, hsame⟩ := h
  have hopened : (captureCalls here f next x deleted).map Source.record =
      .opened (openPayload { f with inbound := here = .server } next) ::
        ((captureCalls here f next x deleted).map Source.record).tail := rfl
  have hmem : Record.opened (openPayload { f with inbound := here = .server } next) ∈
      es.map fun e => e.record utf8ToUtf16 := by
    apply List.mem_of_mem_filter (p := fun r => r.flowId = (openPayload f next).flowId)
    rw [hown, hopened]
    exact List.mem_cons_self ..
  obtain ⟨e, he, hrecord⟩ := List.mem_map.mp hmem
  have hflow := recordFlow_of_at (@Emission.record_at utf8ToUtf16 e (hok e he))
  rw [hrecord] at hflow
  obtain ⟨fl, hfl⟩ := Option.isSome_iff_exists.mp
    (hm.known (openPayload f next).flowId _ (List.mem_map_of_mem he) hflow)
  refine ⟨fl, hfl, fun p => ?_⟩
  have hbytes : concatenation ((openPayload f next).flowId, here.dir p)
      (es.map fun e => pointer (e.bytes utf8ToUtf16)) = streams p := by
    calc concatenation ((openPayload f next).flowId, here.dir p)
          (es.map fun e => pointer (e.bytes utf8ToUtf16))
      _ = bytesOf ((openPayload f next).flowId, here.dir p)
          (es.map fun e => e.record utf8ToUtf16) := by
        rw [concatenation, bytesOf, List.flatMap_map, List.flatMap_map]
        exact List.flatMap_congr fun e he => dataBytes_of_at (Emission.record_at (hok e he)) _
      _ = sentBy p x := by
        rw [← bytesOf_filter, hown, bytesOf_captureCalls]
      _ = streams p := hsame p
  have hwhole := hm.whole ((openPayload f next).flowId, here.dir p) (by
    rw [hbytes]
    exact hcap p)
  rw [hbytes, KndModel.flow, hfl, Option.getD_some] at hwhole
  exact hwhole

/-- A keylog that has a secret has a line. -/
theorem KeyMap.size_pos {m : KeyMap} {clientRandom : List UInt8}
    (h : KeyMap.masterSecret m clientRandom ≠ []) : KeyMap.size m > 0 := by
  refine Nat.pos_of_ne_zero fun hsize => h ?_
  have hkeys : m.keys = [] := List.length_eq_zero_iff.mp hsize
  have hnone : m.lookup (bytesToHex clientRandom) = none := by
    rw [AList.lookup_eq_none, AList.mem_keys, hkeys]
    exact List.not_mem_nil
  show (m.lookup (bytesToHex clientRandom)).getD [] = []
  rw [hnone]
  rfl

/-- After any run, a fresh frame of a connection that has arrived whole has parsed, and behind the
Decrypted tab decrypted, what the ends sent. -/
theorem frame_whole (hrun : runEvents (withHistory (Ui.step A H utf16ToUtf8) Trail.after)
      (Ui.init, Trail.start) es = some (u, t)) {streams : Party → List UInt8}
    (harrived : Arrived utf8ToUtf16 .client streams u.selectedFlow t.records)
    (hcap : ∀ p, (streams p).length ≤ t.least) {tab : Tab}
    (hfresh : FreshAt A H (u, t.watches) (.frame (some tab))) :
    ∃ u', u.step A H utf16ToUtf8 (.frame (some tab)) = some u' ∧
      httpParse (streams .client) false = some u'.http.value.reqs ∧
      httpParse (streams .server) true = some u'.http.value.resps ∧
      (tab = .decrypted → u.keylogLoaded = true →
        tlsDecryptFlow A H (streams .client) (streams .server) (KeyMap.keyLog u.keylog) =
          some u'.dec.value.dres ∧
        httpParse u'.dec.value.dres.outPlain false = some u'.dec.value.dreq ∧
        httpParse u'.dec.value.dres.inPlain true = some u'.dec.value.dresp) := by
  obtain ⟨f, hf, hpayload⟩ := harrived.payload (run_holds hrun) hcap
  have hout := hpayload .client
  have hin := hpayload .server
  obtain ⟨u', hu', hparse, hdecrypt⟩ := (run_inspected hrun).draws hfresh hf
  obtain ⟨hreqs, hresps⟩ := Shown.parse_eq.mp hparse
  refine ⟨u', hu', ?_, ?_, fun htab hloaded => ?_⟩
  · rw [← hout]
    exact hreqs
  · rw [← hin]
    exact hresps
  · have heq := (Ciphered.decrypt_eq A H).mp (hdecrypt htab hloaded)
    rw [← hout, ← hin]
    exact heq

/-! ### A run that captures -/

variable (utf8ToUtf16) in
/-- The records, ingested one by one. -/
def ingests (calls : List (Emission × Nat)) : List UiEvent :=
  calls.map fun e => .ingest (pointer (e.1.bytes utf8ToUtf16)) e.2

theorem run_ingests (u : Ui) (t : Trail) (calls : List (Emission × Nat)) : ∃ m t',
    runEvents (withHistory (Ui.step A H utf16ToUtf8) Trail.after) (u, t)
        (ingests utf8ToUtf16 calls) = some ({ u with model := m }, t') ∧
      t'.watches = t.watches ∧
      t'.records = t.records ++ (calls.map Prod.fst).map (fun e => pointer (e.bytes utf8ToUtf16)) ∧
      min t.least u.model.payloadCap ≤ t'.least := by
  induction calls generalizing u t with
  | nil => exact ⟨u.model, t, rfl, rfl, (List.append_nil _).symm, Nat.min_le_left ..⟩
  | cons e calls ih =>
    let p := pointer (e.1.bytes utf8ToUtf16)
    let v : Ui := { u with model := u.model.ingest utf16ToUtf8 p e.2 }
    obtain ⟨m, t', hrun, hwatches, hrecords, hleast⟩ := ih v (t.after u (.ingest p e.2))
    refine ⟨m, t', runEvents_cons.mpr ⟨_, rfl, hrun⟩, hwatches, hrecords.trans ?_, ?_⟩
    · exact List.append_assoc t.records [p] _
    · have hcap : v.model.payloadCap = u.model.payloadCap :=
        u.model.ingest_payloadCap utf16ToUtf8 p e.2
      rw [hcap] at hleast
      exact le_trans (le_min le_rfl (Nat.min_le_right ..)) hleast

/-- The program with a keylog that is loaded before anything else. -/
def Ui.loaded (contents : List UInt8) : Ui :=
  { Ui.init with
    keylog := KeyMap.loadFile ∅ contents
    keylogLoaded := KeyMap.size (KeyMap.loadFile ∅ contents) > 0 }

@[simp] theorem Ui.loaded_keylog (contents : List UInt8) :
    (Ui.loaded contents).keylog = KeyMap.loadFile ∅ contents := rfl

theorem run_loaded (contents : List UInt8) (es : List UiEvent) :
    runEvents (withHistory (Ui.step A H utf16ToUtf8) Trail.after) (Ui.init, Trail.start)
        (.loadKeylog (some contents) :: es) =
      runEvents (withHistory (Ui.step A H utf16ToUtf8) Trail.after)
        (Ui.loaded contents, { Trail.start with watches := ⟨.none, Watch.none.replace⟩ }) es := rfl

/-- Records come in, a flow is selected, the cap is lowered, and a tab other than the Decrypted one is
drawn. -/
theorem run_watched (u : Ui) (t : Trail) (calls : List (Emission × Nat)) (id : UInt64) {tab : Tab}
    (htab : tab ≠ .decrypted) : ∃ u' t',
    runEvents (withHistory (Ui.step A H utf16ToUtf8) Trail.after) (u, t)
        (ingests utf8ToUtf16 calls ++ [.select id, .payloadCap 1, .frame (some tab)]) =
          some (u', t') ∧
      u'.selectedFlow = id ∧ u'.keylog = u.keylog ∧ t'.watches.dec = t.watches.dec ∧
      (t.watches.http.replaced = false → t'.watches.http.replaced = false) ∧
      t'.records = t.records ++ (calls.map Prod.fst).map (fun e => pointer (e.bytes utf8ToUtf16)) ∧
      min t.least u.model.payloadCap ≤ t'.least := by
  obtain ⟨m, t₁, hrun, hwatches, hrecords, hleast⟩ :=
    @run_ingests A H utf8ToUtf16 utf16ToUtf8 u t calls
  let v : Ui := { u with model := { m with payloadCap := capBytes 1 }, selectedFlow := id }
  obtain ⟨u', hu'⟩ := @drawInspector_total A H v tab
  obtain ⟨-, hselected, hkeylog, -⟩ := drawInspector_keeps hu'
  have hframe : (v.step A H utf16ToUtf8 (.frame (some tab))) = some u' := hu'
  refine ⟨u', t₁.after v (.frame (some tab)), runEvents_append.mpr ⟨_, hrun,
    runEvents_cons.mpr ⟨_, rfl, runEvents_cons.mpr ⟨(v, t₁), rfl, runEvents_cons.mpr ⟨_, ?_, rfl⟩⟩⟩⟩,
    hselected, hkeylog, ?_, fun hreplaced => ?_, hrecords, hleast⟩
  · rw [withHistory, hframe]
    rfl
  · rw [Trail.after_watches, ← hwatches]
    simp only [Watches.after]
    split
    · rfl
    · exact if_neg fun h => htab h.1
  · rw [← hwatches] at hreplaced
    rw [Trail.after_watches]
    simp only [Watches.after]
    split
    · exact hreplaced
    · unfold Memo.watch
      split
      · rfl
      · exact hreplaced

end

end NetDebugger
