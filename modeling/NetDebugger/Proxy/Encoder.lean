import NetDebugger.Lib.Masked
import NetDebugger.Proxy
import NetDebugger.Ring.Calls

/-! The records that the proxy builds beside those that `KndRingWrite` lays out for the same payload and
data.  Both fill in the header and copy; the driver rounds the length up and zeroes what is left, and
where a tail of the ring is too short for a header it takes that as well. -/

namespace NetDebugger.Proxy

open Lib NetDebugger.Ring

/-! ### The two encoders -/

/-- A ring with nothing in it for the consumer, wherever its position is. -/
structure EmptyRing where
  state : RingState
  size : RingSize state.dataSize
  aligned : Aligned state.dataSize state.writePos
  empty : state.header.readPos = state.writePos

/-- The record of a call that `KndRingWrite` does not drop. -/
def laidOut (s : RingState) (c : WriteCall) : Option (List UInt8) :=
  (beginWrite s c).toOption.map fun p => p.accepted.bytes

/-- The sequence number and the timestamp of a record. -/
def stamped (i : Nat) : Prop := 8 ≤ i ∧ i < sizeofKndRecord

/-- The same, and the dataKind of a data payload. -/
def stampedData (i : Nat) : Prop := stamped i ∨ i = sizeofKndRecord + 9

/-- What `knd_protocol.h` says of a record: its length covers the header and what follows it, and is a
multiple of `KND_RECORD_ALIGN`; the data follows its payload. -/
structure WireContract (bs : List UInt8) : Prop where
  length : (KndRecord.read (pointer bs)).length = bs.length
  aligned : bs.length % kndRecordAlign = 0
  data : (KndRecord.read (pointer bs)).type = kndRecData →
    sizeofKndRecord + sizeofKndDataPayload +
      (KndDataPayload.read fun i => pointer bs (sizeofKndRecord + i)).dataLength.toNat ≤ bs.length

/-- A record of the proxy is the one that the driver lays out for the call, but for the hidden bytes,
and both keep to the contract. -/
structure SameWire (r : EmptyRing) (hidden : Nat → Prop) (built : List UInt8) (c : WriteCall) :
    Prop where
  same : ∀ bs, laidOut r.state c = some bs → SameBut hidden built bs
  contract : WireContract built
  laid : ∀ bs, laidOut r.state c = some bs → WireContract bs

/-- A record of the length leaves a tail in front of the end of the ring that cannot hold a header. -/
def EmptyRing.Absorbs (r : EmptyRing) (len : Nat) : Prop :=
  len < r.state.dataSize - r.state.writePos % r.state.dataSize ∧
    r.state.dataSize - r.state.writePos % r.state.dataSize < len + sizeofKndRecord

/-! ### What the driver lays out -/

theorem laidOut_eq_some {s : RingState} {c : WriteCall} {bs : List UInt8} :
    laidOut s c = some bs ↔ ∃ pl, place s.dataSize s.writePos s.header.readPos c.recLen = .ok pl ∧
      bs = recordBytes c pl.recLen (Pending.of s c pl).sequence := by
  unfold laidOut beginWrite
  cases place s.dataSize s.writePos s.header.readPos c.recLen with
  | error bytes => simp [Except.toOption]
  | ok pl =>
    simp only [Except.toOption, Option.map_some, Pending.accepted, Accepted.bytes, Pending.of_call,
      Pending.of_place, Option.some.injEq, Except.ok.injEq, exists_eq_left']
    exact eq_comm

/-- It is what lies in the ring after the call. -/
theorem laidOut_lies {s t : RingState} {c : WriteCall} (h : kndRingWrite s c = (t, true)) :
    ∃ bs off, laidOut s c = some bs ∧ Lies t.data off bs := by
  unfold kndRingWrite at h
  cases hbegin : beginWrite s c with
  | error u =>
    rw [hbegin] at h
    cases h
  | ok p =>
    rw [hbegin] at h
    obtain ⟨rfl, -⟩ := Prod.mk.inj h
    refine ⟨p.accepted.bytes, if p.place.needPad = 0 then p.place.offset else 0, ?_, ?_⟩
    · rw [laidOut, hbegin]
      rfl
    · obtain ⟨pl, hplace, rfl⟩ : ∃ pl, place s.dataSize s.writePos s.header.readPos c.recLen = .ok pl ∧
          Pending.of s c pl = p := by
        unfold beginWrite at hbegin
        split at hbegin
        · cases hbegin
        · exact ⟨_, by assumption, Except.ok.inj hbegin⟩
      simp only [commitWrite, Pending.accepted, Accepted.bytes, Pending.of_call, Pending.of_place]
      unfold Pending.of
      by_cases hpad : pl.needPad = 0
      · rw [if_pos hpad, if_neg (not_not.mpr hpad)]
        exact lies_putAll_blockStores ..
      · rw [if_neg hpad, if_pos hpad, Memory.putAll_append]
        exact lies_putAll_blockStores ..

theorem sequence_lt (s : RingState) (c : WriteCall) (pl : Placement) :
    (Pending.of s c pl).sequence < 2 ^ 64 := by
  have hlt : ∀ n, incr64 n < 2 ^ 64 := fun n => Nat.mod_lt _ (Nat.two_pow_pos 64)
  unfold Pending.of
  split
  · exact hlt _
  · exact hlt _

/-- Where no tail is taken, a record whose size is a multiple of 8 has nothing behind its data. -/
theorem laidOut_exact {r : EmptyRing} {c : WriteCall} {bs : List UInt8} (hc : c.Admissible)
    (hrec : c.recLen = sizeofKndRecord + c.payload.len + c.data.len)
    (hnot : ¬r.Absorbs c.recLen) (h : laidOut r.state c = some bs) :
    ∃ sequence, bs = (KndRecord.mk c.recLen c.type c.flags sequence c.timestamp).bytes ++
      c.payload.copied ++ c.data.copied := by
  obtain ⟨pl, hplace, rfl⟩ := laidOut_eq_some.mp h
  have hp := place_ok r.size hplace
  have hlt := hp.recLen_lt
  have hle := hp.recLen_le
  have hsize := hc.size
  have hlen : pl.recLen = c.recLen := by
    rcases hp.recLen_eq with heq | heq
    · exact heq
    · by_contra hne
      refine hnot ⟨by omega, ?_⟩
      rw [← heq]
      exact hlt
  refine ⟨(Pending.of r.state c pl).sequence, ?_⟩
  have hpad : (c.recLen + 2 ^ 32 * 3 - sizeofKndRecord - c.payload.len - c.data.len) % 2 ^ 32 =
      0 := by
    omega
  rw [hlen, recordBytes, hpad, List.replicate_zero, List.append_nil]

/-- A record that takes the tail is longer than its call. -/
theorem laidOut_absorbed {r : EmptyRing} {c : WriteCall} (hc : c.Admissible)
    (h : r.Absorbs c.recLen) : ∃ bs, laidOut r.state c = some bs ∧ c.recLen < bs.length := by
  obtain ⟨hroom, htail⟩ := h
  have hempty := r.empty
  have hhigh := r.size.high
  have haccepts : Accepts r.state c := by
    refine ⟨by omega, by omega, by omega, ?_⟩
    simp only [footprint]
    rw [if_neg (by omega), if_pos htail]
    omega
  rcases place_eq c r.size with ⟨-, hplace⟩ | ⟨hnot, -⟩
  · have hp := place_ok r.size hplace
    have hle := hp.recLen_le
    have hlong : c.recLen < (layout r.state.dataSize r.state.writePos c.recLen).recLen := by
      rcases hp.pad with ⟨hpad, -⟩ | ⟨-, -, hwrap⟩
      · have hsize : sizeofKndRecord = 24 := rfl
        rcases hp.leftover hpad with hfull | hfree
        · omega
        · omega
      · omega
    refine ⟨_, laidOut_eq_some.mpr ⟨_, hplace, rfl⟩, ?_⟩
    rw [recordBytes_length hc _ hle (by have := hp.fits; have := hp.total_eq; omega)]
    exact hlong
  · exact absurd haccepts hnot

/-- What the driver lays out keeps to the contract. -/
theorem laidOut_contract {r : EmptyRing} {c : WriteCall} {bs : List UInt8} (hc : c.Admissible)
    (hdata : c.type = kndRecData → ∃ p : KndDataPayload, c.payload.copied = p.bytes ∧
      p.dataLength.toNat = c.data.len) (h : laidOut r.state c = some bs) : WireContract bs := by
  obtain ⟨pl, hplace, hbs⟩ := laidOut_eq_some.mp h
  have hp := place_ok r.size hplace
  have hle := hp.recLen_le
  have hfits := hp.fits
  have htotal := hp.total_eq
  have hhigh := r.size.high
  have hempty := r.empty
  have hlt : pl.recLen < 2 ^ 32 := by omega
  have hlen : bs.length = pl.recLen := by
    rw [hbs]
    exact recordBytes_length hc _ hle hlt
  have hlies : Lies (pointer bs) 0 (recordBytes c pl.recLen (Pending.of r.state c pl).sequence) := by
    have hall := lies_pointer bs []
    rw [List.append_nil] at hall
    exact hbs ▸ hall
  rw [recordBytes, lies_append, lies_append, lies_append] at hlies
  obtain ⟨⟨⟨hheader, hpayload⟩, -⟩, -⟩ := hlies
  have hread := KndRecord.read_of_lies hlt (sequence_lt r.state c pl) hheader
  constructor
  case length =>
    rw [hlen]
    exact congrArg KndRecord.length hread
  case aligned =>
    rw [hlen]
    exact (hp.aligned r.size r.aligned hc.recLen_spec.2.2).2.2
  case data =>
    intro htype
    obtain ⟨p, hcopied, hcount⟩ := hdata ((congrArg KndRecord.type hread).symm.trans htype)
    have hspec := hc.recLen_spec
    have hplen := hc.payload.copied_length
    rw [hcopied, KndRecord.bytes_length] at hpayload
    rw [hcopied, KndDataPayload.bytes_length] at hplen
    have hfields : KndDataPayload.read (fun i => pointer bs (sizeofKndRecord + i)) = p :=
      KndDataPayload.read_of_lies (hpayload.congr fun i _ => by rw [Nat.zero_add, Nat.zero_add]; rfl)
    have hsize : sizeofKndRecord + sizeofKndDataPayload = 24 + 16 := rfl
    rw [hfields, hcount, hlen]
    omega

/-! ### What the proxy builds -/

/-- A header in front of bytes, whatever the length field says of them. -/
theorem built_length (type : UInt16) (len : Nat) (timestamp : UInt64) (payload data : List UInt8) :
    ((header type len timestamp).bytes ++ payload ++ data).length =
      sizeofKndRecord + payload.length + data.length := by
  rw [List.length_append, List.length_append, KndRecord.bytes_length, sizeofKndRecord]

theorem header_same {hidden : Nat → Prop} (hhidden : ∀ i, stamped i → hidden i) (type : UInt16)
    {len : Nat} (hlen : len < 2 ^ 32) (sequence : Nat) (timestamp timestamp' : UInt64) :
    SameBut hidden (header type len timestamp).bytes
      (KndRecord.mk len type 0 sequence timestamp').bytes := by
  have hlength : (header type len timestamp).length = len := Nat.mod_eq_of_lt hlen
  have hstamps : SameBut (fun i => hidden (8 + i))
      (leBytes 8 0 ++ leBytes 8 timestamp.toNat) (leBytes 8 sequence ++ leBytes 8 timestamp'.toNat) := by
    refine .of_hidden (by simp) fun i hi => hhidden _ ⟨Nat.le_add_right .., ?_⟩
    simp only [List.length_append, leBytes_length] at hi
    show 8 + i < 24
    omega
  have hbytes := (SameBut.refl hidden
    (leBytes 4 len ++ leBytes 2 type.toNat ++ leBytes 2 (0 : UInt16).toNat)).append hstamps
  rw [← List.append_assoc, ← List.append_assoc] at hbytes
  rw [KndRecord.bytes, hlength]
  exact hbytes

/-- One condition for a record of either kind. -/
theorem sameWire_of {r : EmptyRing} {hidden : Nat → Prop} (hhidden : ∀ i, stamped i → hidden i)
    {type : UInt16} {timestamp : UInt64} {payload data : List UInt8} {c : WriteCall} {len : Nat}
    (hlen : len = sizeofKndRecord + payload.length + data.length)
    (htype : c.type = type) (hflags : c.flags = 0) (hpayload : c.payload.Present)
    (hsame : SameBut (fun i => hidden (sizeofKndRecord + i)) payload c.payload.copied)
    (hdata : c.data.Present) (hcopied : c.data.copied = data)
    (hcontract : WireContract ((header type len timestamp).bytes ++ payload ++ data) ↔
      len < 2 ^ 32 ∧ len % 8 = 0)
    (hfields : type = kndRecData → ∃ p : KndDataPayload, c.payload.copied = p.bytes ∧
      p.dataLength.toNat = c.data.len) :
    SameWire r hidden ((header type len timestamp).bytes ++ payload ++ data) c ↔
      len < 2 ^ 32 ∧ len % 8 = 0 ∧ ¬r.Absorbs len := by
  have hplen : c.payload.len = payload.length := by
    rw [hsame.length, hpayload.copied_length]
  have hdlen : c.data.len = data.length := by
    rw [← hcopied, hdata.copied_length]
  have hsize (hlt : len < 2 ^ 32) (h8 : len % 8 = 0) : c.Admissible ∧ c.recLen = len := by
    have hle : len ≤ 2 ^ 32 - 8 := by omega
    refine ⟨⟨hpayload, hdata, by omega⟩, ?_⟩
    rw [WriteCall.recLen, hplen, hdlen, ← hlen, kndAlignUp, kndRecordAlign]
    omega
  constructor
  · rintro ⟨hall, hwire, -⟩
    obtain ⟨hlt, h8⟩ := hcontract.mp hwire
    obtain ⟨hc, hrec⟩ := hsize hlt h8
    refine ⟨hlt, h8, fun habsorbs => ?_⟩
    rw [← hrec] at habsorbs
    obtain ⟨bs, hbs, hlong⟩ := laidOut_absorbed hc habsorbs
    have heq := (hall bs hbs).length
    rw [built_length] at heq
    omega
  · rintro ⟨hlt, h8, hnot⟩
    obtain ⟨hc, hrec⟩ := hsize hlt h8
    refine ⟨fun bs hbs => ?_, hcontract.mpr ⟨hlt, h8⟩,
      fun bs hbs => laidOut_contract hc (by rwa [htype]) hbs⟩
    rw [← hrec] at hnot
    obtain ⟨sequence, rfl⟩ := laidOut_exact hc (by omega) hnot hbs
    rw [htype, hflags, hrec, hcopied]
    have hheader := header_same hhidden type hlt sequence timestamp c.timestamp
    have hhead : (header type len timestamp).bytes.length = sizeofKndRecord := KndRecord.bytes_length _
    refine (hheader.append ?_).append (SameBut.refl _ data)
    rw [hhead]
    exact hsame

/-! ### The contract -/

/-- The length field is right as long as 32 bits can hold the length. -/
theorem built_contract {type : UInt16} {timestamp : UInt64} {payload data : List UInt8} {len : Nat}
    (hlen : len = sizeofKndRecord + payload.length + data.length)
    (hdata : type = kndRecData → sizeofKndRecord + sizeofKndDataPayload +
      (KndDataPayload.read fun i =>
        pointer ((header type len timestamp).bytes ++ payload ++ data)
          (sizeofKndRecord + i)).dataLength.toNat ≤ len) :
    WireContract ((header type len timestamp).bytes ++ payload ++ data) ↔
      len < 2 ^ 32 ∧ len % 8 = 0 := by
  have hread : KndRecord.read (pointer ((header type len timestamp).bytes ++ payload ++ data)) =
      header type len timestamp := by
    rw [List.append_assoc]
    exact header_read ..
  have hbuilt := built_length type len timestamp payload data
  rw [← hlen] at hbuilt
  constructor
  · intro h
    have hfield := h.length
    have halign := h.aligned
    rw [hread, hbuilt] at hfield
    rw [hbuilt] at halign
    refine ⟨?_, halign⟩
    rw [← hfield]
    exact Nat.mod_lt _ (Nat.two_pow_pos 32)
  · rintro ⟨hlt, h8⟩
    constructor
    case length =>
      rw [hread, hbuilt]
      exact Nat.mod_eq_of_lt hlt
    case aligned =>
      rw [hbuilt]
      exact h8
    case data =>
      rw [hread, hbuilt]
      exact hdata

theorem buildData_contract (flow : UInt64) (dir : UInt8) {data : List UInt8}
    (hdata : data.length < 2 ^ 32) (timestamp : UInt64) :
    WireContract (buildData flow dir data timestamp) ↔
      sizeofKndRecord + sizeofKndDataPayload + data.length < 2 ^ 32 ∧
        (sizeofKndRecord + sizeofKndDataPayload + data.length) % 8 = 0 := by
  refine built_contract (by rw [KndDataPayload.bytes_length, sizeofKndDataPayload]) fun _ => ?_
  have hbody := body_lies kndRecData (sizeofKndRecord + sizeofKndDataPayload + data.length)
    timestamp ((dataPayload flow dir data).bytes ++ data)
  rw [lies_append, ← List.append_assoc] at hbody
  rw [KndDataPayload.read_of_lies hbody.1]
  show _ + (UInt32.ofNat data.length).toNat ≤ _
  rw [UInt32.toNat_ofNat', Nat.mod_eq_of_lt hdata]

theorem conn_contract {type : UInt16} (htype : type ≠ kndRecData) (p : KndConnPayload)
    (timestamp : UInt64) : WireContract
      ((header type (sizeofKndRecord + sizeofKndConnPayload) timestamp).bytes ++ p.bytes) := by
  have hcontract := @built_contract type timestamp p.bytes [] (sizeofKndRecord + sizeofKndConnPayload)
    (by rw [KndConnPayload.bytes_length]; rfl) (fun h => absurd h htype)
  rw [List.append_nil] at hcontract
  exact hcontract.mpr ⟨by decide, by decide⟩

/-! ### The three builders -/

theorem dataPayload_same (flow : UInt64) (dir : UInt8) (data : List UInt8) :
    SameBut (fun i => stampedData (sizeofKndRecord + i)) (dataPayload flow dir data).bytes
      (Capture.dataPayload flow dir data).bytes := by
  have hkind : SameBut (fun i => stampedData (sizeofKndRecord + (9 + i))) [kndDataPlaintext]
      [kndDataCiphertext] := by
    refine .of_hidden rfl fun i hi => .inr ?_
    rw [List.length_singleton] at hi
    omega
  have hfields := ((SameBut.refl (fun i => stampedData (sizeofKndRecord + i))
    (leBytes 8 flow.toNat ++ [dir])).append hkind).append
      (.refl _ (leBytes 2 0 ++ leBytes 4 (UInt32.ofNat data.length).toNat))
  simp only [List.append_assoc] at hfields
  simp only [KndDataPayload.bytes, dataPayload, Capture.dataPayload, List.append_assoc]
  exact hfields

theorem buildData_sameWire (r : EmptyRing) (flow : UInt64) (dir : UInt8) {data : List UInt8}
    (hdata : data.length < 2 ^ 32) (timestamp timestamp' : UInt64) :
    SameWire r stampedData (buildData flow dir data timestamp)
        (Capture.dataCall flow dir 0 data timestamp') ↔
      sizeofKndRecord + sizeofKndDataPayload + data.length < 2 ^ 32 ∧
        (sizeofKndRecord + sizeofKndDataPayload + data.length) % 8 = 0 ∧
        ¬r.Absorbs (sizeofKndRecord + sizeofKndDataPayload + data.length) := by
  refine sameWire_of (fun i hi => .inl hi) ?_ rfl rfl (Buffer.present_bytes _)
    (dataPayload_same flow dir data) (Buffer.present_bytes _) rfl
    (buildData_contract flow dir hdata timestamp) fun _ => ⟨Capture.dataPayload flow dir data, rfl, ?_⟩
  · rw [KndDataPayload.bytes_length, sizeofKndDataPayload]
  · show (UInt32.ofNat data.length).toNat = data.length
    rw [UInt32.toNat_ofNat', Nat.mod_eq_of_lt hdata]

theorem conn_sameWire (r : EmptyRing) {type : UInt16} (htype : type ≠ kndRecData)
    (p : KndConnPayload) (timestamp timestamp' : UInt64) :
    SameWire r stamped
        ((header type (sizeofKndRecord + sizeofKndConnPayload) timestamp).bytes ++ p.bytes)
        (Capture.connCall type p timestamp') ↔
      ¬r.Absorbs (sizeofKndRecord + sizeofKndConnPayload) := by
  have hcontract := conn_contract htype p timestamp
  have hsame := @sameWire_of r stamped (fun _ hi => hi) type timestamp p.bytes []
    (Capture.connCall type p timestamp') (sizeofKndRecord + sizeofKndConnPayload)
    (by rw [KndConnPayload.bytes_length]; rfl) rfl rfl (Buffer.present_bytes _) (.refl _ _)
    Buffer.present_null rfl (by rw [List.append_nil]; exact iff_of_true hcontract ⟨by decide, by decide⟩)
    (fun h => absurd h htype)
  rw [List.append_nil] at hsame
  rw [hsame]
  exact ⟨fun h => h.2.2, fun h => ⟨by decide, by decide, h⟩⟩

/-! ### The rings -/

def EmptyRing.fresh {D : Nat} (hD : RingSize D) : EmptyRing := ⟨RingState.fresh D, hD, aligned_zero hD, rfl⟩

/-- A ring that calls and an honest consumer leave empty. -/
theorem EmptyRing.of_reaches {D : Nat} {ms : List Move} {x : RingState × Nat} (hD : RingSize D)
    (h : Reaches (RingState.fresh D) ms x) (hempty : x.1.header.readPos = x.1.writePos) :
    ∃ r : EmptyRing, r.state = x.1 := by
  have hsound := h.sound hD
  have hsize := hsound.size
  have haligned := hsound.aligned
  rw [← hsize] at hD haligned
  exact ⟨⟨x.1, hD, haligned, hempty⟩, rfl⟩

/-- A record of a connection never reaches the end of a fresh ring. -/
theorem fresh_not_absorbs {D len : Nat} (hD : RingSize D) (hlen : len + sizeofKndRecord ≤ 2 ^ 16) :
    ¬(EmptyRing.fresh hD).Absorbs len := by
  rintro ⟨-, htail⟩
  have hlow := hD.low
  have hcontig : (EmptyRing.fresh hD).state.dataSize -
      (EmptyRing.fresh hD).state.writePos % (EmptyRing.fresh hD).state.dataSize = D := by
    show D - 0 % D = D
    rw [Nat.zero_mod, Nat.sub_zero]
  omega

/-- In every empty ring: a block of data has the record of the driver exactly when its length is a
multiple of 8 and the ring has no tail for the record to take. Connections have it without such a tail. -/
theorem sameWire_iff (utf8ToUtf16 : List UInt8 → List UInt16) (r : EmptyRing) (flow : UInt64)
    (dir : UInt8) {data : List UInt8} (hdata : data.length < 2 ^ 32) (host : List UInt8)
    (port : UInt16) (timestamp timestamp' : UInt64) :
    (SameWire r stampedData (buildData flow dir data timestamp)
        (Capture.dataCall flow dir 0 data timestamp') ↔
      data.length % 8 = 0 ∧ sizeofKndRecord + sizeofKndDataPayload + data.length < 2 ^ 32 ∧
        ¬r.Absorbs (sizeofKndRecord + sizeofKndDataPayload + data.length)) ∧
    (SameWire r stamped (buildConnOpen utf8ToUtf16 flow host port timestamp)
        (Capture.connCall kndRecConnOpen (openPayload utf8ToUtf16 flow host port) timestamp') ↔
      ¬r.Absorbs (sizeofKndRecord + sizeofKndConnPayload)) ∧
    (SameWire r stamped (buildConnClose flow timestamp)
        (Capture.connCall kndRecConnClose (Capture.closePayload flow) timestamp') ↔
      ¬r.Absorbs (sizeofKndRecord + sizeofKndConnPayload)) := by
  refine ⟨?_, conn_sameWire r (by decide) _ timestamp timestamp',
    conn_sameWire r (by decide) _ timestamp timestamp'⟩
  have hsize : sizeofKndRecord + sizeofKndDataPayload = 24 + 16 := rfl
  have hmod : (sizeofKndRecord + sizeofKndDataPayload + data.length) % 8 = 0 ↔
      data.length % 8 = 0 := by omega
  rw [buildData_sameWire r flow dir hdata, hmod]
  exact and_left_comm

theorem ringSize_least : RingSize 0x10000 := ⟨⟨16, rfl⟩, by decide, by decide⟩

/-- Eight bytes in the smallest ring. -/
theorem sameWire_iff_eight : SameWire (.fresh ringSize_least) stampedData
    (buildData 1 kndDirOutbound (List.replicate 8 0x61) 7)
    (Capture.dataCall 1 kndDirOutbound 0 (List.replicate 8 0x61) 9) := by
  have hiff := (sameWire_iff (fun _ => []) (.fresh ringSize_least) 1 kndDirOutbound
    (show (List.replicate 8 (0x61 : UInt8)).length < 2 ^ 32 by decide) [] 443 7 9).1
  exact hiff.mpr ⟨by decide, by decide, fresh_not_absorbs ringSize_least (by decide)⟩

/-- One byte: the driver rounds the 41 bytes up to 48, and the proxy does not. -/
theorem oneByte_differs :
    (buildData 1 kndDirOutbound [0x61] 7).length = 41 ∧
    (∃ bs, laidOut (RingState.fresh 0x10000) (Capture.dataCall 1 kndDirOutbound 0 [0x61] 9) =
      some bs ∧ bs.length = 48) ∧
    ¬SameWire (.fresh ringSize_least) stampedData (buildData 1 kndDirOutbound [0x61] 7)
      (Capture.dataCall 1 kndDirOutbound 0 [0x61] 9) := by
  have hbuilt : (buildData 1 kndDirOutbound [0x61] 7).length = 41 := by decide
  have hlaid : (laidOut (RingState.fresh 0x10000)
      (Capture.dataCall 1 kndDirOutbound 0 [0x61] 9)).map List.length = some 48 := by decide +kernel
  obtain ⟨bs, hbs, hlen⟩ := Option.map_eq_some_iff.mp hlaid
  refine ⟨hbuilt, ⟨bs, hbs, hlen⟩, fun hwire => ?_⟩
  have heq := (hwire.same bs hbs).length
  omega

end NetDebugger.Proxy
