import NetDebugger.Http.Text
import NetDebugger.Inspector.HexDump
import NetDebugger.Lib.Buttons
import NetDebugger.Lib.Runs
import NetDebugger.Model.Replay
import NetDebugger.Proxy

/-! The list of packets in `ui.cpp`.  Records come in and the filter changes while the mouse is over
the list.  A click selects the packet that it goes down and up on, and the packet is shown until the
log has dropped it. -/

namespace NetDebugger

open Lib Http

/-- The part of a `SYSTEMTIME` that is shown. -/
structure SystemTime where
  hour : Fin 24
  minute : Fin 60
  second : Fin 60

/-- `%02u`, and `%03u` likewise. -/
def decimalPadded (width n : Nat) : List UInt8 := zeroPadded width (decimal n)

/-- `KndFormatTime`. `localTime` is what Windows makes of the ticks. -/
def kndFormatTime (localTime : UInt64 → Option SystemTime) (ticks : UInt64) : List UInt8 :=
  match localTime ticks with
  | none => text "--:--:--"
  | some st =>
    snprintf 32 (decimalPadded 2 st.hour ++ text ":" ++ decimalPadded 2 st.minute ++ text ":" ++
      decimalPadded 2 st.second ++ text "." ++ decimalPadded 3 (ticks.toNat / 10000 % 1000))

/-! ### The rows -/

inductive Tint
  | opened
  | closed
  | inbound
deriving DecidableEq

/-- A row of the table. -/
structure PacketRow where
  tint : Option Tint
  label : List UInt8
  sel : Bool
  time : List UInt8
  flow : List UInt8
  dir : List UInt8
  len : Option (List UInt8)
  info : List UInt8
deriving DecidableEq

def packetLabel (no : UInt64) : List UInt8 :=
  snprintf 40 (decimal no.toNat ++ text "##p" ++ decimal no.toNat)

def PacketRow.of (localTime : UInt64 → Option SystemTime) (sel : Bool) (p : KndPacket) :
    PacketRow where
  tint :=
    if p.type = kndRecConnOpen then some .opened
    else if p.type = kndRecConnClose then some .closed
    else if p.direction = kndDirInbound then some .inbound
    else none
  label := packetLabel p.no
  sel := sel
  time := kndFormatTime localTime p.ts
  flow := zeroPadded 4 (upperHex (p.flowId &&& 0xFFFF).toNat)
  dir :=
    if p.type ≠ kndRecData then []
    else if p.direction = kndDirInbound then text "in" else text "out"
  len := if p.type = kndRecData then some (decimal p.length.toNat) else none
  info := p.info

/-- What is under the table when a packet is selected. -/
structure PacketDetail where
  title : List UInt8
  preview : List UInt8
deriving DecidableEq

def PacketDetail.of (p : KndPacket) : PacketDetail :=
  ⟨text "#" ++ decimal p.no.toNat ++ text "  " ++ cString p.info, p.preview⟩

def infoMatch (info needleLower : List UInt8) : Bool :=
  if needleLower = [] then true else (indexOf needleLower (lower info)).isSome

/-! ### The pane -/

/-- The model, what `AppState` holds of the pane, and the id that ImGui has active in it. -/
structure PacketPane (ι : Type) where
  model : KndModel
  packetFilter : List UInt8
  selectedPacket : UInt64
  activeId : Option ι

inductive PacketEvent
  | ingest (p : Nat → UInt8) (now : Nat)
  | clear
  | type (filter : List UInt8)
  | frame (shown : List Nat) (m : Pointer)

section

variable {ι : Type}

def PacketPane.start (ι : Type) (payloadCap packetCap : Nat) : PacketPane ι :=
  ⟨KndModel.empty payloadCap packetCap, [], 0, none⟩

/-- The packets that pass the filter. -/
def PacketPane.view (s : PacketPane ι) : List KndPacket :=
  let nf := lower s.packetFilter
  s.model.packets.filter fun p => nf = [] ∨ infoMatch p.info nf

/-- The packets of the rows that the clipper lets through. -/
def PacketPane.rows (s : PacketPane ι) (shown : List Nat) : List KndPacket :=
  shown.filterMap (s.view[·]?)

/-- The selected packet, as it is looked up in the log. -/
def PacketPane.selp (s : PacketPane ι) : Option KndPacket :=
  s.model.packets.find? fun p => p.no = s.selectedPacket

variable [DecidableEq ι] (imHash : List UInt8 → ι)

/-- `DrawPackets`: the pane afterwards, the rows and the detail. A row is drawn as the selected one
according to the rows before it. -/
def drawPackets (localTime : UInt64 → Option SystemTime) (s : PacketPane ι) (shown : List Nat)
    (m : Pointer) : PacketPane ι × List PacketRow × Option PacketDetail :=
  let rows := s.rows shown
  let idOf := fun p : KndPacket => imHash (packetLabel p.no)
  let act := fun _ (p : KndPacket) => p.no
  let selectedAt := fun i => (buttons m idOf act 0 s.selectedPacket s.activeId (rows.take i)).1
  let r := buttonFrame m idOf act s.selectedPacket s.activeId rows
  let s := { s with selectedPacket := r.1, activeId := r.2 }
  (s, rows.mapIdx fun i p => PacketRow.of localTime (selectedAt i = p.no) p,
    s.selp.map PacketDetail.of)

/-- The rows that are shown come in their order. -/
def PacketPane.step (localTime : UInt64 → Option SystemTime)
    (utf16ToUtf8 : List UInt16 → List UInt8) (s : PacketPane ι) :
    PacketEvent → Option (PacketPane ι)
  | .ingest p now => some { s with model := s.model.ingest utf16ToUtf8 p now }
  | .clear => some { s with model := s.model.clear }
  | .type filter => some { s with packetFilter := snprintf 128 (cString filter) }
  | .frame shown m =>
    if shown.Pairwise (· < ·) then some (drawPackets imHash localTime s shown m).1 else none

end

/-- The call of the model in an event. -/
def PacketEvent.call : PacketEvent → Option Call
  | .ingest p now => some (.ingest p now)
  | .clear => some .clear
  | .type _ => none
  | .frame _ _ => none

/-- The records that have come in since the last clear. -/
def arrivals (es : List PacketEvent) : List Arrival := sinceClear (es.filterMap PacketEvent.call)

/-- The row of the packet is drawn and the mouse button is held. -/
def Held {ι : Type} (p : KndPacket) (s : PacketPane ι) : PacketEvent → Prop
  | .frame shown m => m.down = true ∧ p ∈ s.rows shown
  | _ => True

def PacketEvent.NoClick : PacketEvent → Prop
  | .frame _ m => m.clicked = false
  | _ => True

def PacketEvent.NoClear : PacketEvent → Prop
  | .clear => False
  | _ => True

/-! ### Labels -/

theorem mem_decimal {n : Nat} {b : UInt8} (h : b ∈ decimal n) : 0x30 ≤ b ∧ b ≤ 0x39 := by
  obtain ⟨c, hc, rfl⟩ := List.mem_map.mp h
  obtain ⟨d, hd, rfl⟩ := mem_toDigits (by decide) hc
  have hdigits : ∀ d < 10, 0x30 ≤ UInt8.ofNat (Nat.digitChar d).toNat ∧
      UInt8.ofNat (Nat.digitChar d).toNat ≤ 0x39 := by
    decide
  exact hdigits d hd

theorem length_decimal (n : UInt64) : (decimal n.toNat).length ≤ 20 := by
  rw [decimal, List.length_map]
  exact (Nat.length_toDigits_le_iff (by decide) (by decide)).mpr (n.toNat_lt.trans (by decide))

theorem decimal_injective : Function.Injective decimal := by
  have hreads : ReadsDigits (digitVal 10) (fun c => UInt8.ofNat c.toNat) 10 := by
    unfold ReadsDigits
    decide
  exact toDigits_injective (by decide) hreads

/-- A label tells the number of its packet, also where it is cut. -/
theorem packetLabel_injective : Function.Injective packetLabel := by
  have hnumber : ∀ no : UInt64, (packetLabel no).takeWhile (· ≠ 0x23) = decimal no.toNat := by
    intro no
    have hlen := length_decimal no
    have hdigits : ∀ b ∈ decimal no.toNat, decide (b ≠ 0x23) = true := by
      intro b hb
      have hlow := (mem_decimal hb).1
      rw [decide_eq_true_eq]
      rintro rfl
      exact absurd hlow (by decide)
    have hrest : (text "##p" ++ decimal no.toNat).take (39 - (decimal no.toNat).length) =
        0x23 :: ((text "#p" ++ decimal no.toNat).take (38 - (decimal no.toNat).length)) := by
      rw [show 39 - (decimal no.toNat).length = 38 - (decimal no.toNat).length + 1 by omega]
      rfl
    rw [packetLabel, snprintf, List.append_assoc, List.take_append,
      List.take_of_length_le (by omega), hrest, List.takeWhile_append_of_pos hdigits,
      List.takeWhile_cons_of_neg (by decide), List.append_nil]
  intro a b h
  have hdecimal : decimal a.toNat = decimal b.toNat := by rw [← hnumber, ← hnumber, h]
  exact UInt64.toNat_inj.mp (decimal_injective hdecimal)

/-! ### The log -/

section

variable {utf16ToUtf8 : List UInt16 → List UInt8} {payloadCap packetCap : Nat} {m : KndModel}
  {es : List Arrival}

theorem packetLog_number (hcount : (logged es).length < 2 ^ 64) {i : Nat} {p : KndPacket}
    (h : (packetLog utf16ToUtf8 payloadCap [] es)[i]? = some p) : p.no.toNat = i + 1 := by
  obtain ⟨hlt, -⟩ := List.getElem?_eq_some_iff.mp h
  rw [length_packetLog] at hlt
  rw [packetLog_no utf16ToUtf8 payloadCap es h, UInt64.toNat_ofNat']
  exact Nat.mod_eq_of_lt (by omega)

/-- A packet is found by its number as long as the log has it. -/
theorem Replayed.find_packet (h : Replayed utf16ToUtf8 payloadCap packetCap m es)
    (hcount : (logged es).length < 2 ^ 64) {no : UInt64} (hno : 0 < no.toNat) :
    (m.packets.find? fun p => p.no = no) =
      if (logged es).length < no.toNat + packetCap
      then (packetLog utf16ToUtf8 payloadCap [] es)[no.toNat - 1]? else none := by
  have hnumbers : ∀ i p, (packetLog utf16ToUtf8 payloadCap [] es)[i]? = some p →
      p.no.toNat = i + 1 := fun i p => packetLog_number hcount
  have hfind := find_recent hnumbers packetCap hno
  rw [length_packetLog] at hfind
  simp only [← hfind, h.packets, UInt64.toNat_inj]

/-- The numbers rise along the log. -/
theorem Replayed.increasing (h : Replayed utf16ToUtf8 payloadCap packetCap m es)
    (hcount : (logged es).length < 2 ^ 64) :
    m.packets.Pairwise fun p q => p.no.toNat < q.no.toNat := by
  have hlog : (packetLog utf16ToUtf8 payloadCap [] es).Pairwise
      fun p q => p.no.toNat < q.no.toNat := by
    rw [List.pairwise_iff_getElem]
    intro i j hi hj hij
    rw [packetLog_number hcount (List.getElem?_eq_getElem hi),
      packetLog_number hcount (List.getElem?_eq_getElem hj)]
    exact Nat.succ_lt_succ hij
  rw [h.packets]
  exact hlog.sublist (List.drop_sublist _ _)

end

/-! ### The rows that are shown -/

section

variable {ι : Type} {utf16ToUtf8 : List UInt16 → List UInt8} {payloadCap packetCap : Nat}
  {s t : PacketPane ι} {es : List Arrival}

theorem PacketPane.mem_packets {shown : List Nat} {p : KndPacket} (h : p ∈ s.rows shown) :
    p ∈ s.model.packets := by
  obtain ⟨i, -, hi⟩ := List.mem_filterMap.mp h
  exact (List.mem_filter.mp (List.mem_of_getElem? hi)).1

/-- The numbers rise from row to row. -/
theorem PacketPane.rows_increasing
    (h : Replayed utf16ToUtf8 payloadCap packetCap s.model es)
    (hcount : (logged es).length < 2 ^ 64) {shown : List Nat} (hshown : shown.Pairwise (· < ·)) :
    (s.rows shown).Pairwise fun p q => p.no.toNat < q.no.toNat := by
  have hview : s.view.Pairwise fun p q => p.no.toNat < q.no.toNat :=
    (h.increasing hcount).sublist List.filter_sublist
  rw [PacketPane.rows, List.pairwise_filterMap]
  refine hshown.imp ?_
  intro i j hij p hp q hq
  obtain ⟨hi, rfl⟩ := List.getElem?_eq_some_iff.mp hp
  obtain ⟨hj, rfl⟩ := List.getElem?_eq_some_iff.mp hq
  exact List.pairwise_iff_getElem.mp hview i j hi hj hij

/-- No row before a packet's own has its number. -/
theorem PacketPane.rows_before
    (h : Replayed utf16ToUtf8 payloadCap packetCap s.model es)
    (hcount : (logged es).length < 2 ^ 64) {shown : List Nat} (hshown : shown.Pairwise (· < ·))
    {j : Nat} {p : KndPacket} (hp : (s.rows shown)[j]? = some p) {q : KndPacket}
    (hq : q ∈ (s.rows shown).take j) : q.no ≠ p.no := by
  have hrows := PacketPane.rows_increasing h hcount hshown
  obtain ⟨hj, rfl⟩ := List.getElem?_eq_some_iff.mp hp
  obtain ⟨i, hi, rfl⟩ := List.mem_take_iff_getElem.mp hq
  have hlt := List.pairwise_iff_getElem.mp hrows i j (by omega) hj (by omega)
  intro heq
  rw [heq] at hlt
  exact Nat.lt_irrefl _ hlt

/-- A packet of the log is found by its number. -/
theorem Replayed.find_mem {m : KndModel} (h : Replayed utf16ToUtf8 payloadCap packetCap m es)
    (hcount : (logged es).length < 2 ^ 64) {p : KndPacket} (hp : p ∈ m.packets) :
    0 < p.no.toNat ∧ (m.packets.find? fun q => q.no = p.no) = some p ∧
      (packetLog utf16ToUtf8 payloadCap [] es)[p.no.toNat - 1]? = some p := by
  have hlog : p ∈ packetLog utf16ToUtf8 payloadCap [] es := by
    rw [h.packets] at hp
    exact List.mem_of_mem_drop hp
  obtain ⟨i, hi⟩ := List.mem_iff_getElem?.mp hlog
  have hno := packetLog_number hcount hi
  have hplace : (packetLog utf16ToUtf8 payloadCap [] es)[p.no.toNat - 1]? = some p := by
    rw [hno, Nat.add_sub_cancel, hi]
  have hkept : (logged es).length < p.no.toNat + packetCap := by
    rw [h.packets] at hp
    obtain ⟨k, hk⟩ := List.mem_iff_getElem?.mp hp
    rw [recent, List.getElem?_drop, length_packetLog] at hk
    have hk' := packetLog_number hcount hk
    omega
  refine ⟨by omega, ?_, hplace⟩
  rw [h.find_packet hcount (by omega), if_pos hkept, hplace]

end

/-! ### Runs -/

section

variable {ι : Type} [DecidableEq ι] {imHash : List UInt8 → ι}
  {localTime : UInt64 → Option SystemTime} {utf16ToUtf8 : List UInt16 → List UInt8}
  {payloadCap packetCap : Nat} {s t : PacketPane ι}

theorem PacketPane.step_model {e : PacketEvent}
    (h : s.step imHash localTime utf16ToUtf8 e = some t) :
    t.model = s.model.run utf16ToUtf8 e.call.toList := by
  cases e with
  | ingest p now => rw [← Option.some.inj h]; rfl
  | clear => rw [← Option.some.inj h]; rfl
  | type filter => rw [← Option.some.inj h]; rfl
  | frame shown m =>
    rw [PacketPane.step] at h
    split at h
    · rw [← Option.some.inj h]; rfl
    · cases h

theorem PacketPane.run_model {es : List PacketEvent}
    (h : runEvents (PacketPane.step imHash localTime utf16ToUtf8) s es = some t) :
    t.model = s.model.run utf16ToUtf8 (es.filterMap PacketEvent.call) := by
  induction es generalizing s with
  | nil => rw [← Option.some.inj h]; rfl
  | cons e es ih =>
    obtain ⟨u, hu, hrest⟩ := runEvents_cons.mp h
    rw [ih hrest, PacketPane.step_model hu, KndModel.run, KndModel.run, KndModel.run,
      ← List.foldl_append]
    congr 1
    rw [List.filterMap_cons]
    cases e.call <;> rfl

theorem PacketPane.run_replayed {es : List PacketEvent}
    (h : runEvents (PacketPane.step imHash localTime utf16ToUtf8)
      (.start ι payloadCap packetCap) es = some s) :
    Replayed utf16ToUtf8 payloadCap packetCap s.model (arrivals es) := by
  rw [PacketPane.run_model h]
  exact replayed_run payloadCap packetCap _

/-- A frame can happen only where the rows come in their order. -/
theorem PacketPane.step_frame {shown : List Nat} {m : Pointer}
    (h : s.step imHash localTime utf16ToUtf8 (.frame shown m) = some t) :
    shown.Pairwise (· < ·) ∧ t.model = s.model ∧ (t.selectedPacket, t.activeId) =
      buttonFrame m (fun p : KndPacket => imHash (packetLabel p.no)) (fun _ p => p.no)
        s.selectedPacket s.activeId (s.rows shown) := by
  rw [PacketPane.step] at h
  split at h
  · next hshown =>
    rw [← Option.some.inj h]
    exact ⟨hshown, rfl, rfl⟩
  · cases h

/-- While the mouse button is held over the list, the row that it went down on stays active. -/
theorem PacketPane.step_held {p : KndPacket} {e : PacketEvent} (he : Held p s e)
    (hs : s.activeId = some (imHash (packetLabel p.no)))
    (h : s.step imHash localTime utf16ToUtf8 e = some t) :
    t.activeId = some (imHash (packetLabel p.no)) := by
  cases e with
  | ingest p now => rw [← Option.some.inj h]; exact hs
  | clear => rw [← Option.some.inj h]; exact hs
  | type filter => rw [← Option.some.inj h]; exact hs
  | frame shown m =>
    obtain ⟨-, -, hframe⟩ := PacketPane.step_frame h
    have hdrawn := List.mem_map_of_mem (f := fun q : KndPacket => imHash (packetLabel q.no)) he.2
    rw [hs, buttonFrame_held _ _ he.1 _ hdrawn] at hframe
    exact (Prod.mk.inj hframe).2

/-- Without a click the selection stays. -/
theorem PacketPane.step_noClick {e : PacketEvent} (he : e.NoClick) (hs : s.activeId = none)
    (h : s.step imHash localTime utf16ToUtf8 e = some t) :
    t.activeId = none ∧ t.selectedPacket = s.selectedPacket := by
  cases e with
  | ingest p now => rw [← Option.some.inj h]; exact ⟨hs, rfl⟩
  | clear => rw [← Option.some.inj h]; exact ⟨hs, rfl⟩
  | type filter => rw [← Option.some.inj h]; exact ⟨hs, rfl⟩
  | frame shown m =>
    obtain ⟨-, -, hframe⟩ := PacketPane.step_frame h
    rw [hs, buttonFrame_quiet _ _ he] at hframe
    obtain ⟨hsel, hactive⟩ := Prod.mk.inj hframe
    exact ⟨hactive, hsel⟩

theorem arrivals_append_noClear (es : List PacketEvent) {fs : List PacketEvent}
    (hfs : ∀ e ∈ fs, e.NoClear) : ∃ more, arrivals (es ++ fs) = arrivals es ++ more := by
  induction fs using List.reverseRecOn with
  | nil => exact ⟨[], by rw [List.append_nil, List.append_nil]⟩
  | append_singleton fs e ih =>
    obtain ⟨more, hmore⟩ := ih fun f hf => hfs f (List.mem_append_left _ hf)
    have he := hfs e (List.mem_append_right _ (List.mem_singleton_self e))
    have hlast : arrivals (es ++ (fs ++ [e])) =
        sinceClear ((es ++ fs).filterMap PacketEvent.call ++ [e].filterMap PacketEvent.call) := by
      rw [← List.append_assoc, arrivals, List.filterMap_append]
    rw [hlast]
    cases e with
    | ingest p now =>
      refine ⟨more ++ [(p, now)], ?_⟩
      rw [← List.append_assoc, ← hmore]
      exact sinceClear_ingest _ p now
    | clear => exact he.elim
    | type filter => exact ⟨more, by rw [← hmore]; exact congrArg _ (List.append_nil _)⟩
    | frame shown m => exact ⟨more, by rw [← hmore]; exact congrArg _ (List.append_nil _)⟩

/-- A click that goes down on a packet's row and up on it again, with whatever comes in or is typed in
between, selects this packet and shows it, if no other row that is drawn has the same hash. -/
theorem packet_click {es : List PacketEvent}
    (hes : runEvents (PacketPane.step imHash localTime utf16ToUtf8)
      (.start ι payloadCap packetCap) es = some s) (hactive : s.activeId = none)
    {shown : List Nat} {m : Pointer} {i : Nat} {p : KndPacket}
    (hdown : m.clicked = true ∧ m.down = true ∧ m.place = some i ∧ (s.rows shown)[i]? = some p)
    {s₁ s₂ s₃ : PacketPane ι}
    (hpress : s.step imHash localTime utf16ToUtf8 (.frame shown m) = some s₁)
    {hold : List PacketEvent}
    (hhold : EachStep (PacketPane.step imHash localTime utf16ToUtf8) (Held p) s₁ hold)
    (hrun : runEvents (PacketPane.step imHash localTime utf16ToUtf8) s₁ hold = some s₂)
    {shown' : List Nat} {m' : Pointer} {j : Nat}
    (hup : m'.clicked = false ∧ m'.down = false ∧ m'.place = some j ∧
      (s₂.rows shown')[j]? = some p)
    (hrelease : s₂.step imHash localTime utf16ToUtf8 (.frame shown' m') = some s₃)
    (hcount : (logged (arrivals (es ++ .frame shown m :: hold))).length < 2 ^ 64)
    (hids : ∀ q ∈ s₂.rows shown', imHash (packetLabel q.no) = imHash (packetLabel p.no) →
      packetLabel q.no = packetLabel p.no) :
    s₃.selectedPacket = p.no ∧ s₃.activeId = none ∧
      (drawPackets imHash localTime s₂ shown' m').2.2 = some (PacketDetail.of p) := by
  obtain ⟨hclicked, hmdown, hover, hrow⟩ := hdown
  obtain ⟨hclicked', hmdown', hover', hrow'⟩ := hup
  have hs₁ : s₁.activeId = some (imHash (packetLabel p.no)) := by
    obtain ⟨-, -, hframe⟩ := PacketPane.step_frame hpress
    rw [hactive, buttonFrame_down _ _ hclicked hmdown hover _ hrow] at hframe
    exact (Prod.mk.inj hframe).2
  have hs₂ : s₂.activeId = some (imHash (packetLabel p.no)) := by
    refine @runEvents_invariant_of _ _ _ _ (fun u : PacketPane ι =>
      u.activeId = some (imHash (packetLabel p.no))) ?_ _ _ _ hs₁ hhold hrun
    exact fun u e v he hu hv => PacketPane.step_held he hu hv
  have hreplayed : Replayed utf16ToUtf8 payloadCap packetCap s₂.model
      (arrivals (es ++ .frame shown m :: hold)) :=
    PacketPane.run_replayed (runEvents_append.mpr ⟨s, hes, runEvents_cons.mpr ⟨s₁, hpress, hrun⟩⟩)
  obtain ⟨hshown', hmodel, hframe⟩ := PacketPane.step_frame hrelease
  have hfirst : imHash (packetLabel p.no) ∉
      ((s₂.rows shown').take j).map fun q => imHash (packetLabel q.no) := by
    intro hmem
    obtain ⟨q, hq, heq⟩ := List.mem_map.mp hmem
    have hlabel := hids q (List.mem_of_mem_take hq) heq
    exact PacketPane.rows_before hreplayed hcount hshown' hrow' hq (packetLabel_injective hlabel)
  have hpressed : buttonFrame m' (fun p : KndPacket => imHash (packetLabel p.no))
      (fun _ p => p.no) s₂.selectedPacket s₂.activeId (s₂.rows shown') = (p.no, none) := by
    rw [hs₂]
    refine (buttonFrame_up _ _ hclicked' hmdown' hover' _ hrow').trans ?_
    rw [if_neg hfirst]
  rw [hpressed] at hframe
  obtain ⟨hsel, hnone⟩ := Prod.mk.inj hframe
  refine ⟨hsel, hnone, ?_⟩
  have hmem := PacketPane.mem_packets (List.mem_of_getElem? hrow')
  have hfound := (hreplayed.find_mem hcount hmem).2.1
  have hdetail : (drawPackets imHash localTime s₂ shown' m').2.2 =
      (s₂.model.packets.find? fun q => q.no = (buttonFrame m'
        (fun p : KndPacket => imHash (packetLabel p.no)) (fun _ p => p.no) s₂.selectedPacket
        s₂.activeId (s₂.rows shown')).1).map PacketDetail.of := rfl
  rw [hdetail, hpressed, hfound]
  rfl

def pingRecord : Nat → UInt8 := pointer (Proxy.buildData 5 kndDirOutbound (text "ping") 0)

/-- The pane after two records. -/
def twoPackets : PacketPane (List UInt8) :=
  { PacketPane.start (List UInt8) 16 3 with
    model := (KndModel.empty 16 3).run (fun _ => []) [.ingest pingRecord 0, .ingest pingRecord 0] }

/-- The third record comes in while the mouse button is down on the second one's row. -/
theorem packet_click_twoPackets : ∃ s₂ s₃ : PacketPane (List UInt8), ∃ p,
    runEvents (PacketPane.step id (fun _ => none) fun _ => []) twoPackets
      [.frame [0, 1] ⟨some 1, true, true⟩, .ingest pingRecord 0,
        .frame [0, 1, 2] ⟨some 0, false, true⟩] = some s₂ ∧
    s₂.step id (fun _ => none) (fun _ => []) (.frame [0, 1, 2] ⟨some 1, false, false⟩) = some s₃ ∧
    s₃.selectedPacket = p.no ∧ s₃.activeId = none ∧
    (drawPackets id (fun _ => none) s₂ [0, 1, 2] ⟨some 1, false, false⟩).2.2 =
      some (PacketDetail.of p) := by
  let s₁ := (drawPackets id (fun _ => none) twoPackets [0, 1] ⟨some 1, true, true⟩).1
  let u : PacketPane (List UInt8) :=
    { s₁ with model := s₁.model.ingest (fun _ => []) pingRecord 0 }
  let s₂ := (drawPackets id (fun _ => none) u [0, 1, 2] ⟨some 0, false, true⟩).1
  let s₃ := (drawPackets id (fun _ => none) s₂ [0, 1, 2] ⟨some 1, false, false⟩).1
  have hrow : ((twoPackets.rows [0, 1])[1]?).isSome = true := by decide +kernel
  obtain ⟨p, hp⟩ := Option.isSome_iff_exists.mp hrow
  have hheld : (u.rows [0, 1, 2])[1]? = (twoPackets.rows [0, 1])[1]? := by decide +kernel
  have hreleased : (s₂.rows [0, 1, 2])[1]? = (twoPackets.rows [0, 1])[1]? := by decide +kernel
  rw [hp] at hheld hreleased
  have hhold : EachStep (PacketPane.step id (fun _ => none) fun _ => []) (Held p) s₁
      [.ingest pingRecord 0, .frame [0, 1, 2] ⟨some 0, false, true⟩] := by
    refine ⟨trivial, fun v hv => ⟨⟨rfl, ?_⟩, fun _ _ => trivial⟩⟩
    obtain rfl : u = v := Option.some.inj hv
    exact List.mem_of_getElem? hheld
  exact ⟨s₂, s₃, p, rfl, rfl, packet_click
    (show runEvents (PacketPane.step id (fun _ => none) fun _ => []) (.start (List UInt8) 16 3)
      [.ingest pingRecord 0, .ingest pingRecord 0] = some twoPackets from rfl) rfl
    ⟨rfl, rfl, rfl, hp⟩ rfl hhold rfl ⟨rfl, rfl, rfl, hreleased⟩ rfl (by decide +kernel)
    fun q _ h => h⟩

/-- A selected packet is shown until `packetCap` more have been logged, whatever comes in and is typed
without another click. After a clear it is the packet of that number in the new capture. -/
theorem packet_followed {es : List PacketEvent}
    (hes : runEvents (PacketPane.step imHash localTime utf16ToUtf8)
      (.start ι payloadCap packetCap) es = some s) (hactive : s.activeId = none)
    {p : KndPacket} (hp : p ∈ s.model.packets) (hsel : s.selectedPacket = p.no)
    {fs : List PacketEvent} (hfs : ∀ e ∈ fs, e.NoClick)
    (hrun : runEvents (PacketPane.step imHash localTime utf16ToUtf8) s fs = some t)
    (hbefore : (logged (arrivals es)).length < 2 ^ 64)
    (hcount : (logged (arrivals (es ++ fs))).length < 2 ^ 64) :
    (t.selp = if (logged (arrivals (es ++ fs))).length < p.no.toNat + packetCap
      then (packetLog utf16ToUtf8 payloadCap [] (arrivals (es ++ fs)))[p.no.toNat - 1]?
      else none) ∧
    ((∀ e ∈ fs, e.NoClear) → t.selp =
      if (logged (arrivals (es ++ fs))).length < p.no.toNat + packetCap then some p else none) := by
  obtain ⟨hpos, -, hplace⟩ := (PacketPane.run_replayed hes).find_mem hbefore hp
  have hkept : t.activeId = none ∧ t.selectedPacket = p.no := by
    refine @runEvents_invariant _ _ _ PacketEvent.NoClick (fun u : PacketPane ι =>
      u.activeId = none ∧ u.selectedPacket = p.no) ?_ _ _ _ ⟨hactive, hsel⟩ hfs hrun
    intro u e v he hu hv
    obtain ⟨hnone, hsame⟩ := PacketPane.step_noClick he hu.1 hv
    exact ⟨hnone, hsame.trans hu.2⟩
  have hreplayed : Replayed utf16ToUtf8 payloadCap packetCap t.model (arrivals (es ++ fs)) :=
    PacketPane.run_replayed (runEvents_append.mpr ⟨s, hes, hrun⟩)
  have hfound : t.selp = if (logged (arrivals (es ++ fs))).length < p.no.toNat + packetCap
      then (packetLog utf16ToUtf8 payloadCap [] (arrivals (es ++ fs)))[p.no.toNat - 1]?
      else none := by
    rw [PacketPane.selp, hkept.2]
    exact hreplayed.find_packet hcount hpos
  refine ⟨hfound, fun hclear => ?_⟩
  obtain ⟨more, hmore⟩ := arrivals_append_noClear es hclear
  obtain ⟨hlt, -⟩ := List.getElem?_eq_some_iff.mp hplace
  rw [hfound, hmore, packetLog_append, List.getElem?_append_left hlt, hplace]

/-- The second of two packets is still there after two more, in a log of three. -/
theorem packet_followed_twoPackets : ∃ s t : PacketPane (List UInt8), ∃ p,
    runEvents (PacketPane.step id (fun _ => none) fun _ => []) twoPackets
      [.frame [0, 1] ⟨some 1, true, true⟩, .frame [0, 1] ⟨some 1, false, false⟩] = some s ∧
    s.model.packets[1]? = some p ∧
    runEvents (PacketPane.step id (fun _ => none) fun _ => []) s
      [.ingest pingRecord 0, .frame [0] ⟨some 0, false, false⟩, .ingest pingRecord 0] = some t ∧
    t.selp = some p := by
  let s₁ := (drawPackets id (fun _ => none) twoPackets [0, 1] ⟨some 1, true, true⟩).1
  let s := (drawPackets id (fun _ => none) s₁ [0, 1] ⟨some 1, false, false⟩).1
  have hrow : (s.model.packets[1]?).isSome = true := by decide +kernel
  obtain ⟨p, hp⟩ := Option.isSome_iff_exists.mp hrow
  have hsel : (s.model.packets[1]?).map KndPacket.no = some s.selectedPacket := by decide +kernel
  have htwo : (s.model.packets[1]?).map KndPacket.no = some 2 := by decide +kernel
  rw [hp, Option.map_some] at hsel htwo
  have hes : runEvents (PacketPane.step id (fun _ => none) fun _ => [])
      (.start (List UInt8) 16 3) [.ingest pingRecord 0, .ingest pingRecord 0,
        .frame [0, 1] ⟨some 1, true, true⟩, .frame [0, 1] ⟨some 1, false, false⟩] = some s := rfl
  have hquiet : ∀ e ∈ [.ingest pingRecord 0, .frame [0] ⟨some 0, false, false⟩,
      .ingest pingRecord 0], PacketEvent.NoClick e := by
    simp [PacketEvent.NoClick]
  have hkept := (packet_followed hes rfl (List.mem_of_getElem? hp) (Option.some.inj hsel).symm
    hquiet rfl (by decide +kernel) (by decide +kernel)).2 (by simp [PacketEvent.NoClear])
  refine ⟨s, _, p, rfl, hp, rfl, hkept.trans (if_pos ?_)⟩
  rw [Option.some.inj htwo]
  decide +kernel

end

end NetDebugger
