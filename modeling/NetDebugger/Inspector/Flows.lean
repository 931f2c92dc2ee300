import NetDebugger.Inspector.Packets
import NetDebugger.Proxy.Queue

/-! The list of flows in `ui.cpp`.  A row is told apart by the time of its flow and as many digits of
the flow's id as its label has room for.  A click on a row selects its flow unless a row above it has
the same label, and ids below `10 ^ 17` are always told apart. -/

namespace NetDebugger

open Lib Http

def kndFormatProto (protocol : UInt8) : List UInt8 :=
  if protocol = kndProtoTcp then text "TCP"
  else if protocol = kndProtoUdp then text "UDP"
  else snprintf 16 (text "ip:" ++ decimal protocol.toNat)

/-! ### The rows -/

/-- What the filter is looked for in. -/
def flowHay (f : KndFlow) : List UInt8 :=
  snprintf 512 (cString f.processName ++ text " " ++ kndFormatAddr f.remoteAddr f.ipVersion ++
    text " " ++ decimal f.remotePort.toNat ++ text " " ++ kndFormatAddr f.localAddr f.ipVersion ++
    text " " ++ decimal f.localPort.toNat ++ text " " ++ kndFormatProto f.protocol)

def flowMatchesFilter (f : KndFlow) (filterText : List UInt8) (showClosed : Bool) : Bool :=
  if !showClosed && f.closed then false
  else if filterText = [] then true
  else (indexOf (lower filterText) (lower (flowHay f))).isSome

def flowLabel (localTime : UInt64 → Option SystemTime) (f : KndFlow) : List UInt8 :=
  snprintf 32 (kndFormatTime localTime f.firstTs ++ text "##" ++ decimal f.flowId.toNat)

/-- A row of the table; its highlight fades with the time and is left out. -/
structure FlowRow where
  label : List UInt8
  sel : Bool
  process : List UInt8
  tooltip : Option (List UInt8)
  pid : List UInt8
  proto : List UInt8
  remote : List UInt8
  dir : List UInt8
  out : List UInt8
  inn : List UInt8
  state : List UInt8
deriving DecidableEq

/-- `formatBytes` is `KndFormatBytes`, which computes with `double`. -/
def FlowRow.of (localTime : UInt64 → Option SystemTime) (formatBytes : UInt64 → List UInt8)
    (sel : Bool) (f : KndFlow) : FlowRow where
  label := flowLabel localTime f
  sel := sel
  process := if f.processName = [] then text "(unknown)" else cString f.processName
  tooltip := if f.processPath = [] then none else some (cString f.processPath)
  pid := decimal f.processId.toNat
  proto := kndFormatProto f.protocol
  remote := kndFormatAddr f.remoteAddr f.ipVersion ++ text ":" ++ decimal f.remotePort.toNat
  dir := if f.direction = kndDirInbound then text "in" else text "out"
  out := formatBytes f.bytesOut
  inn := formatBytes f.bytesIn
  state := if f.closed then text "closed" else text "open"

/-! ### The pane -/

/-- The model, what `AppState` holds of the pane, and the id that ImGui has active in it. -/
structure FlowPane (ι : Type) where
  model : KndModel
  filterText : List UInt8
  showClosed : Bool
  selectedFlow : UInt64
  activeId : Option ι

inductive FlowEvent
  | ingest (p : Nat → UInt8) (now : Nat)
  | clear
  | type (filter : List UInt8)
  | toggle
  | frame (m : Pointer)

section

variable {ι : Type}

def FlowPane.start (ι : Type) (payloadCap packetCap : Nat) : FlowPane ι :=
  ⟨KndModel.empty payloadCap packetCap, [], true, 0, none⟩

/-- The flows that have a row. -/
def FlowPane.rows (s : FlowPane ι) : List KndFlow :=
  s.model.table.items.filter fun f => flowMatchesFilter f s.filterText s.showClosed

variable [DecidableEq ι] (imHash : List UInt8 → ι) (localTime : UInt64 → Option SystemTime)

/-- `DrawFlows`: the pane afterwards and the rows. A row is drawn as the selected one according to the
rows before it. -/
def drawFlows (formatBytes : UInt64 → List UInt8) (s : FlowPane ι) (m : Pointer) :
    FlowPane ι × List FlowRow :=
  let idOf := fun f : KndFlow => imHash (flowLabel localTime f)
  let act := fun _ (f : KndFlow) => f.flowId
  let selectedAt := fun i => (buttons m idOf act 0 s.selectedFlow s.activeId (s.rows.take i)).1
  let r := buttonFrame m idOf act s.selectedFlow s.activeId s.rows
  ({ s with selectedFlow := r.1, activeId := r.2 },
    s.rows.mapIdx fun i f => FlowRow.of localTime formatBytes (selectedAt i = f.flowId) f)

def FlowPane.step (formatBytes : UInt64 → List UInt8) (utf16ToUtf8 : List UInt16 → List UInt8)
    (s : FlowPane ι) : FlowEvent → Option (FlowPane ι)
  | .ingest p now => some { s with model := s.model.ingest utf16ToUtf8 p now }
  | .clear => some { s with model := s.model.clear }
  | .type filter => some { s with filterText := snprintf 128 (cString filter) }
  | .toggle => some { s with showClosed := !s.showClosed }
  | .frame m => some (drawFlows imHash localTime formatBytes s m).1

end

/-- A row with the label is drawn and the mouse button is held. -/
def LabelHeld {ι : Type} (localTime : UInt64 → Option SystemTime) (label : List UInt8)
    (s : FlowPane ι) : FlowEvent → Prop
  | .frame m => m.down = true ∧ label ∈ s.rows.map (flowLabel localTime)
  | _ => True

/-- The digits of the id that a label has room for. -/
def idDigits (localTime : UInt64 → Option SystemTime) (f : KndFlow) : List UInt8 :=
  (decimal f.flowId.toNat).take (29 - (kndFormatTime localTime f.firstTs).length)

/-! ### Labels -/

section

variable {localTime : UInt64 → Option SystemTime}

theorem decimalPadded_length {width n : Nat} (hwidth : 0 < width) (hn : n < 10 ^ width) :
    (decimalPadded width n).length = width := by
  have hle : (decimal n).length ≤ width := by
    rw [decimal, List.length_map]
    exact (Nat.length_toDigits_le_iff (by decide) hwidth).mpr hn
  rw [decimalPadded, zeroPadded, List.length_append, List.length_replicate]
  omega

theorem mem_decimalPadded {width n : Nat} {b : UInt8} (h : b ∈ decimalPadded width n) :
    0x23 < b := by
  rcases List.mem_append.mp h with hzero | hdigit
  · rw [List.eq_of_mem_replicate hzero]
    decide
  · exact UInt8.lt_of_lt_of_le (by decide) (mem_decimal hdigit).1

theorem kndFormatTime_length (ticks : UInt64) : (kndFormatTime localTime ticks).length ≤ 12 := by
  rw [kndFormatTime]
  split
  · decide
  · next st _ =>
    have hhour : (decimalPadded 2 st.hour.val).length = 2 :=
      decimalPadded_length (by decide) (st.hour.isLt.trans (by decide))
    have hminute : (decimalPadded 2 st.minute.val).length = 2 :=
      decimalPadded_length (by decide) (st.minute.isLt.trans (by decide))
    have hsecond : (decimalPadded 2 st.second.val).length = 2 :=
      decimalPadded_length (by decide) (st.second.isLt.trans (by decide))
    have hmilli : (decimalPadded 3 (ticks.toNat / 10000 % 1000)).length = 3 :=
      decimalPadded_length (by decide) (Nat.mod_lt _ (by decide))
    have hcolon : (text ":").length = 1 ∧ (text ".").length = 1 := by decide
    simp only [snprintf, List.length_take, List.length_append, hhour, hminute, hsecond, hmilli,
      hcolon.1, hcolon.2]
    decide

theorem mem_kndFormatTime {ticks : UInt64} {b : UInt8} (h : b ∈ kndFormatTime localTime ticks) :
    0x23 < b := by
  rw [kndFormatTime] at h
  split at h
  · have hdashes : ∀ b ∈ text "--:--:--", 0x23 < b := by decide
    exact hdashes b h
  · have hseparators : ∀ b ∈ text ":." , 0x23 < b := by decide
    have hparts := List.mem_of_mem_take h
    simp only [List.mem_append] at hparts
    rcases hparts with (((((hb | hb) | hb) | hb) | hb) | hb) | hb
    · exact mem_decimalPadded hb
    · exact hseparators b (List.mem_cons.mpr (Or.inl (List.mem_singleton.mp hb)))
    · exact mem_decimalPadded hb
    · exact hseparators b (List.mem_cons.mpr (Or.inl (List.mem_singleton.mp hb)))
    · exact mem_decimalPadded hb
    · exact hseparators b (List.mem_cons_of_mem _ hb)
    · exact mem_decimalPadded hb

/-- A label is the time, the separator and the digits that there is room for. -/
theorem flowLabel_eq (f : KndFlow) : flowLabel localTime f =
    kndFormatTime localTime f.firstTs ++ 0x23 :: 0x23 :: idDigits localTime f := by
  have hlen := @kndFormatTime_length localTime f.firstTs
  have hroom : 31 - (kndFormatTime localTime f.firstTs).length =
      29 - (kndFormatTime localTime f.firstTs).length + 1 + 1 := by omega
  rw [flowLabel, snprintf, List.append_assoc, List.take_append,
    List.take_of_length_le (by omega), hroom]
  rfl

/-- Two flows have one label if and only if the times and the digits are the same. -/
theorem flowLabel_eq_iff {f g : KndFlow} : flowLabel localTime f = flowLabel localTime g ↔
    kndFormatTime localTime f.firstTs = kndFormatTime localTime g.firstTs ∧
      idDigits localTime f = idDigits localTime g := by
  have htime : ∀ f, (flowLabel localTime f).takeWhile (0x23 < ·) =
      kndFormatTime localTime f.firstTs := by
    intro f
    rw [flowLabel_eq, List.takeWhile_append_of_pos fun b hb =>
      decide_eq_true (mem_kndFormatTime hb), List.takeWhile_cons_of_neg (by decide),
      List.append_nil]
  constructor
  · intro h
    have hsame : kndFormatTime localTime f.firstTs = kndFormatTime localTime g.firstTs := by
      rw [← htime, ← htime, h]
    rw [flowLabel_eq, flowLabel_eq, hsame, List.append_cancel_left_eq] at h
    exact ⟨hsame, (List.cons.inj (List.cons.inj h).2).2⟩
  · rintro ⟨hsame, hdigits⟩
    rw [flowLabel_eq, flowLabel_eq, hsame, hdigits]

/-- Ids of up to 17 digits are told apart. -/
theorem flowLabel_small {f g : KndFlow} (hf : f.flowId.toNat < 10 ^ 17)
    (hg : g.flowId.toNat < 10 ^ 17) (h : flowLabel localTime f = flowLabel localTime g) :
    f.flowId = g.flowId := by
  have hwhole : ∀ f : KndFlow, f.flowId.toNat < 10 ^ 17 →
      idDigits localTime f = decimal f.flowId.toNat := by
    intro f hf
    have hlen := @kndFormatTime_length localTime f.firstTs
    have hdigits : (decimal f.flowId.toNat).length ≤ 17 := by
      rw [decimal, List.length_map]
      exact (Nat.length_toDigits_le_iff (by decide) (by decide)).mpr hf
    exact List.take_of_length_le (by omega)
  have hdecimal := (flowLabel_eq_iff.mp h).2
  rw [hwhole f hf, hwhole g hg] at hdecimal
  exact UInt64.toNat_inj.mp (decimal_injective hdecimal)

end

/-! ### Runs -/

section

variable {ι : Type} [DecidableEq ι] {imHash : List UInt8 → ι}
  {localTime : UInt64 → Option SystemTime} {formatBytes : UInt64 → List UInt8}
  {utf16ToUtf8 : List UInt16 → List UInt8} {payloadCap packetCap : Nat} {s t : FlowPane ι}

theorem KndModel.ingest_wellFormed {m : KndModel} (hm : m.WellFormed) (p : Nat → UInt8)
    (now : Nat) : (m.ingest utf16ToUtf8 p now).WellFormed := by
  cases hflow : recordFlow p with
  | none =>
    rw [m.ingest_other utf16ToUtf8 now hflow]
    exact hm
  | some k => exact (m.ingest_updated utf16ToUtf8 hm now hflow).1

theorem FlowPane.step_wellFormed {e : FlowEvent} (hs : s.model.WellFormed)
    (h : s.step imHash localTime formatBytes utf16ToUtf8 e = some t) : t.model.WellFormed := by
  cases e with
  | ingest p now =>
    rw [← Option.some.inj h]
    exact KndModel.ingest_wellFormed hs p now
  | clear =>
    rw [← Option.some.inj h]
    exact Indexed.wf_empty
  | _ =>
    rw [← Option.some.inj h]
    exact hs

theorem drawFlows_rows (s : FlowPane ι) (m : Pointer) :
    (drawFlows imHash localTime formatBytes s m).1.rows = s.rows := rfl

theorem FlowPane.step_frame {m : Pointer}
    (h : s.step imHash localTime formatBytes utf16ToUtf8 (.frame m) = some t) :
    (t.selectedFlow, t.activeId) = buttonFrame m (fun f => imHash (flowLabel localTime f))
      (fun _ f => f.flowId) s.selectedFlow s.activeId s.rows := by
  rw [← Option.some.inj h]
  rfl

/-- While the mouse button is held over the list, the label that it went down on stays active. -/
theorem FlowPane.step_held {label : List UInt8} {e : FlowEvent}
    (he : LabelHeld localTime label s e) (hs : s.activeId = some (imHash label))
    (h : s.step imHash localTime formatBytes utf16ToUtf8 e = some t) :
    t.activeId = some (imHash label) ∧ t.selectedFlow = s.selectedFlow := by
  cases e with
  | frame m =>
    have hframe := FlowPane.step_frame h
    have hdrawn : imHash label ∈ s.rows.map fun f => imHash (flowLabel localTime f) := by
      obtain ⟨f, hf, rfl⟩ := List.mem_map.mp he.2
      exact List.mem_map_of_mem hf
    rw [hs, buttonFrame_held _ _ he.1 _ hdrawn] at hframe
    obtain ⟨hsel, hactive⟩ := Prod.mk.inj hframe
    exact ⟨hactive, hsel⟩
  | _ =>
    rw [← Option.some.inj h]
    exact ⟨hs, rfl⟩

omit [DecidableEq ι] in
/-- The flows of the rows have different ids. -/
theorem FlowPane.rows_before (hs : s.model.WellFormed) {j : Nat} {f : KndFlow}
    (hf : s.rows[j]? = some f) {g : KndFlow} (hg : g ∈ s.rows.take j) : g.flowId ≠ f.flowId := by
  have hnodup : (s.rows.map KndFlow.flowId).Nodup :=
    hs.nodup.sublist (List.filter_sublist.map KndFlow.flowId)
  obtain ⟨hj, rfl⟩ := List.getElem?_eq_some_iff.mp hf
  obtain ⟨i, hi, rfl⟩ := List.mem_take_iff_getElem.mp hg
  have hpairs := List.pairwise_iff_getElem.mp (List.pairwise_map.mp hnodup)
  exact hpairs i j (by omega) hj (by omega)

/-- A click that goes down on a flow's row and up on it again, with whatever comes in or is typed in
between: it selects the flow unless a row above shows the same time and the same digits of its
id. Then the selection stays. With ids below `10 ^ 17` the flow is always selected. -/
theorem flow_click {es : List FlowEvent}
    (hes : runEvents (FlowPane.step imHash localTime formatBytes utf16ToUtf8)
      (.start ι payloadCap packetCap) es = some s) (hactive : s.activeId = none)
    {m : Pointer} {i : Nat} {f : KndFlow}
    (hdown : m.clicked = true ∧ m.down = true ∧ m.place = some i ∧ s.rows[i]? = some f)
    {s₁ s₂ s₃ : FlowPane ι}
    (hpress : s.step imHash localTime formatBytes utf16ToUtf8 (.frame m) = some s₁)
    {hold : List FlowEvent}
    (hhold : EachStep (FlowPane.step imHash localTime formatBytes utf16ToUtf8)
      (LabelHeld localTime (flowLabel localTime f)) s₁ hold)
    (hrun : runEvents (FlowPane.step imHash localTime formatBytes utf16ToUtf8) s₁ hold = some s₂)
    {m' : Pointer} {j : Nat} {f' : KndFlow}
    (hup : m'.clicked = false ∧ m'.down = false ∧ m'.place = some j ∧ s₂.rows[j]? = some f')
    (hsame : flowLabel localTime f' = flowLabel localTime f)
    (hrelease : s₂.step imHash localTime formatBytes utf16ToUtf8 (.frame m') = some s₃)
    (hids : ∀ g ∈ s₂.rows, imHash (flowLabel localTime g) = imHash (flowLabel localTime f') →
      flowLabel localTime g = flowLabel localTime f') :
    ((∃ g ∈ s₂.rows.take j, kndFormatTime localTime g.firstTs =
        kndFormatTime localTime f'.firstTs ∧ idDigits localTime g = idDigits localTime f') →
      s₃.selectedFlow = s.selectedFlow) ∧
    ((¬∃ g ∈ s₂.rows.take j, kndFormatTime localTime g.firstTs =
        kndFormatTime localTime f'.firstTs ∧ idDigits localTime g = idDigits localTime f') →
      s₃.selectedFlow = f'.flowId) ∧
    ((∀ g ∈ s₂.rows, g.flowId.toNat < 10 ^ 17) → s₃.selectedFlow = f'.flowId) := by
  obtain ⟨hclicked, hmdown, hover, hrow⟩ := hdown
  obtain ⟨hclicked', hmdown', hover', hrow'⟩ := hup
  have hs₁ : s₁.activeId = some (imHash (flowLabel localTime f)) ∧
      s₁.selectedFlow = s.selectedFlow := by
    have hframe := FlowPane.step_frame hpress
    rw [hactive, buttonFrame_down _ _ hclicked hmdown hover _ hrow] at hframe
    obtain ⟨hsel, hid⟩ := Prod.mk.inj hframe
    exact ⟨hid, hsel⟩
  have hs₂ : s₂.activeId = some (imHash (flowLabel localTime f)) ∧
      s₂.selectedFlow = s.selectedFlow := by
    refine @runEvents_invariant_of _ _ _ _ (fun u : FlowPane ι =>
      u.activeId = some (imHash (flowLabel localTime f)) ∧ u.selectedFlow = s.selectedFlow)
      ?_ _ _ _ hs₁ hhold hrun
    intro u e v he hu hv
    obtain ⟨hid, hsel⟩ := FlowPane.step_held he hu.1 hv
    exact ⟨hid, hsel.trans hu.2⟩
  have hwf : s₂.model.WellFormed := by
    refine @runEvents_invariant _ _ _ (fun _ => True) (fun u : FlowPane ι => u.model.WellFormed)
      (fun u e v _ hu hv => FlowPane.step_wellFormed hu hv) _ _ _
      (show (FlowPane.start ι payloadCap packetCap).model.WellFormed from Indexed.wf_empty)
      (fun _ _ => trivial)
      (runEvents_append.mpr ⟨s, hes, runEvents_cons.mpr ⟨s₁, hpress, hrun⟩⟩)
  have hpressed : s₃.selectedFlow = if imHash (flowLabel localTime f') ∈ (s₂.rows.take j).map
      (fun g => imHash (flowLabel localTime g)) then s.selectedFlow else f'.flowId := by
    have hframe := FlowPane.step_frame hrelease
    rw [hs₂.1, hs₂.2, ← hsame] at hframe
    exact congrArg Prod.fst (hframe.trans (buttonFrame_up _ _ hclicked' hmdown' hover' _ hrow'))
  have hclash : imHash (flowLabel localTime f') ∈ (s₂.rows.take j).map
        (fun g => imHash (flowLabel localTime g)) ↔
      ∃ g ∈ s₂.rows.take j, kndFormatTime localTime g.firstTs =
        kndFormatTime localTime f'.firstTs ∧ idDigits localTime g = idDigits localTime f' := by
    simp only [List.mem_map, ← flowLabel_eq_iff]
    constructor
    · rintro ⟨g, hg, heq⟩
      exact ⟨g, hg, hids g (List.mem_of_mem_take hg) heq⟩
    · rintro ⟨g, hg, heq⟩
      exact ⟨g, hg, congrArg imHash heq⟩
  have hapart : (¬∃ g ∈ s₂.rows.take j, kndFormatTime localTime g.firstTs =
        kndFormatTime localTime f'.firstTs ∧ idDigits localTime g = idDigits localTime f') →
      s₃.selectedFlow = f'.flowId := fun h => by
    rw [hpressed, if_neg (mt hclash.mp h)]
  refine ⟨fun h => ?_, hapart, fun hsmall => hapart ?_⟩
  · rw [hpressed, if_pos (hclash.mpr h)]
  · rintro ⟨g, hg, heq⟩
    have hid := flowLabel_small (hsmall g (List.mem_of_mem_take hg))
      (hsmall f' (List.mem_of_getElem? hrow')) (flowLabel_eq_iff.mpr heq)
    exact FlowPane.rows_before hwf hrow' hg hid

/-- Two flows of the proxy, opened within a millisecond. -/
def twoProxied : FlowPane (List UInt8) :=
  { FlowPane.start (List UInt8) 16 3 with
    model := (KndModel.empty 16 3).run (fun _ => [])
      [.ingest (pointer (Proxy.buildConnOpen (fun _ => []) (Proxy.flowId 0) [] 443 1)) 0,
        .ingest (pointer (Proxy.buildConnOpen (fun _ => []) (Proxy.flowId 1) [] 443 1)) 0] }

/-- The second one's row takes no click. -/
theorem flow_click_twoProxied : ∃ s₂ s₃ : FlowPane (List UInt8), ∃ f,
    runEvents (FlowPane.step id (fun _ => some ⟨0, 0, 0⟩) (fun _ => []) fun _ => []) twoProxied
      [.frame ⟨some 1, true, true⟩, .frame ⟨some 0, false, true⟩] = some s₂ ∧
    s₂.step id (fun _ => some ⟨0, 0, 0⟩) (fun _ => []) (fun _ => [])
      (.frame ⟨some 1, false, false⟩) = some s₃ ∧
    s₂.rows[1]? = some f ∧ f.flowId = Proxy.flowId 1 ∧
    s₃.selectedFlow = twoProxied.selectedFlow := by
  let s₁ := (drawFlows id (fun _ => some ⟨0, 0, 0⟩) (fun _ => []) twoProxied
    ⟨some 1, true, true⟩).1
  let s₂ := (drawFlows id (fun _ => some ⟨0, 0, 0⟩) (fun _ => []) s₁ ⟨some 0, false, true⟩).1
  have hrow : (twoProxied.rows[1]?).isSome = true := by decide +kernel
  obtain ⟨f, hf⟩ := Option.isSome_iff_exists.mp hrow
  have hid : (twoProxied.rows[1]?).map KndFlow.flowId = some (Proxy.flowId 1) := by decide +kernel
  have hlabel : (twoProxied.rows[1]?).map (flowLabel fun _ => some ⟨0, 0, 0⟩) =
      (twoProxied.rows[0]?).map (flowLabel fun _ => some ⟨0, 0, 0⟩) := by decide +kernel
  obtain ⟨g, hg⟩ : ∃ g, twoProxied.rows[0]? = some g :=
    Option.isSome_iff_exists.mp (by decide +kernel)
  rw [hf, Option.map_some, Option.some.injEq] at hid
  rw [hf, hg, Option.map_some, Option.map_some, Option.some.injEq] at hlabel
  have hrows : s₁.rows = twoProxied.rows ∧ s₂.rows = twoProxied.rows :=
    ⟨drawFlows_rows .., (drawFlows_rows ..).trans (drawFlows_rows ..)⟩
  have hhold : EachStep (FlowPane.step id (fun _ => some ⟨0, 0, 0⟩) (fun _ => []) fun _ => [])
      (LabelHeld (fun _ => some ⟨0, 0, 0⟩) (flowLabel (fun _ => some ⟨0, 0, 0⟩) f)) s₁
      [.frame ⟨some 0, false, true⟩] := by
    refine ⟨⟨rfl, List.mem_map_of_mem ?_⟩, fun _ _ => trivial⟩
    rw [hrows.1]
    exact List.mem_of_getElem? hf
  have hf₂ : s₂.rows[1]? = some f := by
    rw [hrows.2]
    exact hf
  have hes : ∀ p q, runEvents (FlowPane.step id (fun _ => some ⟨0, 0, 0⟩) (fun _ => [])
      fun _ => []) (.start (List UInt8) 16 3) [.ingest p 0, .ingest q 0] =
      some { FlowPane.start (List UInt8) 16 3 with
        model := (KndModel.empty 16 3).run (fun _ => []) [.ingest p 0, .ingest q 0] } :=
    fun _ _ => rfl
  refine ⟨s₂, _, f, rfl, rfl, hf₂, hid, (flow_click (s := twoProxied) (hes _ _) rfl
    ⟨rfl, rfl, rfl, hf⟩ rfl hhold rfl ⟨rfl, rfl, rfl, hf₂⟩ rfl rfl
    fun _ _ h => h).1 ?_⟩
  refine ⟨g, List.mem_of_getElem? (i := 0) ?_, flowLabel_eq_iff.mp hlabel.symm⟩
  rw [hrows.2, List.getElem?_take_of_lt (by decide)]
  exact hg

end

end NetDebugger
