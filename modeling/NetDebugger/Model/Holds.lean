import NetDebugger.Model.Payload

/-! What the model holds of the records since it was last cleared.  The cap may have been moved at any
time; a stream that no cap was too small for is whole. -/

namespace NetDebugger

open Lib

/-- The model after the records `past`, which it took under caps of at least `least`. -/
structure KndModel.Holds (least : Nat) (m : KndModel) (past : List (Nat → UInt8)) : Prop where
  wellFormed : m.WellFormed
  whole : ∀ k : Stream, (concatenation k past).length ≤ least →
    (m.flow k.1).payload k.2 = concatenation k past
  known : ∀ id, ∀ p ∈ past, recordFlow p = some id → (m.find id).isSome = true

theorem holds_empty (least cap packetCap : Nat) : (KndModel.empty cap packetCap).Holds least [] where
  wellFormed := Indexed.wf_empty
  whole := fun _ _ => rfl
  known := nofun

theorem concatenation_snoc (k : Stream) (past : List (Nat → UInt8)) (p : Nat → UInt8) :
    concatenation k (past ++ [p]) = concatenation k past ++ dataBytes k p := by
  simp [concatenation]

section

variable {utf16ToUtf8 : List UInt16 → List UInt8} {least : Nat} {m : KndModel}
  {past : List (Nat → UInt8)}

theorem KndModel.Holds.mono (h : m.Holds least past) {least' : Nat} (hle : least' ≤ least) :
    m.Holds least' past :=
  ⟨h.wellFormed, fun k hk => h.whole k (Nat.le_trans hk hle), h.known⟩

/-- A cap that is moved takes nothing away. -/
theorem KndModel.Holds.recap (h : m.Holds least past) (cap : Nat) :
    ({ m with payloadCap := cap } : KndModel).Holds least past :=
  ⟨h.wellFormed, h.whole, h.known⟩

theorem KndModel.Holds.ingest (h : m.Holds least past) (hcap : least ≤ m.payloadCap)
    (p : Nat → UInt8) (now : Nat) : (m.ingest utf16ToUtf8 p now).Holds least (past ++ [p]) := by
  obtain ⟨hwf, hbuffer⟩ := @KndModel.ingest_buffer utf16ToUtf8 m h.wellFormed p now
  refine ⟨hwf, fun k hlen => ?_, fun id q hq hid => ?_⟩
  · have hpayload : ((m.ingest utf16ToUtf8 p now).flow k.1).payload k.2 =
        ((m.ingest utf16ToUtf8 p now).buffer k).buf := rfl
    rw [concatenation_snoc, List.length_append] at hlen
    have hwhole : (m.buffer k).buf = concatenation k past := h.whole k (by omega)
    rw [hpayload, hbuffer k, concatenation_snoc]
    by_cases hfeeds : Feeds k p
    · rw [if_pos hfeeds, Capped.push_whole _ (by rw [hwhole]; omega), hwhole]
    · rw [if_neg hfeeds, dataBytes_of_not_feeds hfeeds, List.append_nil]
      exact hwhole
  · cases hflow : recordFlow p with
    | none =>
      rw [KndModel.find, m.ingest_other utf16ToUtf8 now hflow]
      refine h.known id q ((List.mem_append.mp hq).resolve_right fun hq => ?_) hid
      rw [List.mem_singleton.mp hq, hflow] at hid
      contradiction
    | some id' =>
      obtain ⟨-, hown, hother⟩ := KndModel.ingest_updated utf16ToUtf8 h.wellFormed now hflow
      by_cases hsame : id = id'
      · rw [hsame, hown]
        rfl
      · rw [hother id hsame]
        refine h.known id q ((List.mem_append.mp hq).resolve_right fun hq => hsame ?_) hid
        rw [List.mem_singleton.mp hq, hflow] at hid
        exact (Option.some.inj hid).symm

end

end NetDebugger
