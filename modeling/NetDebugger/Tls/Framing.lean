import NetDebugger.Tls.Decrypt

/-! `ParseRecords` against the encoder of records: the records of a stream are its beginning, and the
rest is the beginning of one more; records with such a rest behind them are parsed as they are. -/

namespace NetDebugger.Tls

open Lib Framing

/-- `PutRec`, which appends a record of version 0x0303. -/
def putRec (s : List UInt8) (type : UInt8) (p : List UInt8) : List UInt8 :=
  s ++ [type, 0x03, 0x03, UInt8.ofNat (p.length / 256), UInt8.ofNat (p.length % 256)] ++ p

/-- Shorter than a record header, or than a header and the length that it announces. -/
def Incomplete (s : List UInt8) : Prop := 5 ≤ s.length → s.length < 5 + beNat ((s.drop 3).take 2)

/-- The type, the version, the length of the payload, and the payload. -/
def Record.encode (r : Record) : List UInt8 :=
  r.type :: (beBytes 2 r.ver.toNat ++ beBytes 2 r.payload.length ++ r.payload)

def encodeAll (recs : List Record) : List UInt8 := recs.flatMap Record.encode

/-! ### Records and frames -/

theorem encodeAll_eq (recs : List Record) : encodeAll recs = join (recs.map Record.frame) := by
  rw [join, List.flatMap_map]
  rfl

theorem incomplete_iff (s : List UInt8) : Incomplete s ↔ recordFraming.Partial s := by
  have htake : (s.take 5).drop 3 = (s.drop 3).take 2 := List.drop_take ..
  unfold Incomplete Framing.Partial
  simp only [recordFraming, htake]

/-- The record in a frame. -/
def ofFrame (f : Frame UInt8) : Record where
  type := f.header.headD 0
  ver := UInt16.ofNat (beNat ((f.header.drop 1).take 2))
  payload := f.body

theorem frame_ofFrame {f : Frame UInt8} (hf : recordFraming.Fits f) : (ofFrame f).frame = f := by
  obtain ⟨header, body⟩ := f
  match header, hf with
  | [a, b, c, d, e], hf =>
    have hlen : body.length = beNat [d, e] := hf.body
    have hver : (UInt16.ofNat (beNat [b, c])).toNat = beNat [b, c] := by
      have hlt : beNat [b, c] < 256 ^ 2 := beNat_lt rfl
      rw [UInt16.toNat_ofNat']
      exact Nat.mod_eq_of_lt hlt
    show Frame.mk (a :: (beBytes 2 (UInt16.ofNat (beNat [b, c])).toNat ++ beBytes 2 body.length))
      body = _
    have hbc : beBytes 2 (beNat [b, c]) = [b, c] := beBytes_beNat rfl
    have hde : beBytes 2 (beNat [d, e]) = [d, e] := beBytes_beNat rfl
    rw [hver, hlen, hbc, hde]
    rfl

theorem ofFrame_payload {f : Frame UInt8} (hf : recordFraming.Fits f) :
    (ofFrame f).payload.length < 2 ^ 16 := by
  have hheader : (f.header.drop 3).length = 2 := by
    rw [List.length_drop, hf.header]
    rfl
  show f.body.length < _
  rw [hf.body]
  exact beNat_lt hheader

theorem map_frame_ofFrame {fs : List (Frame UInt8)} (hfs : ∀ f ∈ fs, recordFraming.Fits f) :
    (fs.map ofFrame).map Record.frame = fs := by
  have hid : ∀ f ∈ fs, (Record.frame ∘ ofFrame) f = id f := fun f hf => frame_ofFrame (hfs f hf)
  rw [List.map_map, List.map_congr_left hid, List.map_id]

theorem parseRecords_encodeAll {recs : List Record} {rest : List UInt8}
    (hrecs : ∀ r ∈ recs, r.payload.length ≤ 65535) (hrest : Incomplete rest) :
    parseRecords (encodeAll recs ++ rest) = some recs := by
  have hshort (r : Record) (hr : r ∈ recs) : r.payload.length < 2 ^ 16 :=
    Nat.lt_succ_of_le (hrecs r hr)
  have hfits : ∀ f ∈ recs.map Record.frame, recordFraming.Fits f := by
    intro f hf
    obtain ⟨r, hr, rfl⟩ := List.mem_map.mp hf
    exact Record.frame_fits (hshort r hr)
  have hsplits := Splits.prepend hfits (.done ((incomplete_iff rest).mp hrest))
  rw [List.append_nil] at hsplits
  rw [encodeAll_eq]
  exact parseRecords_splits hsplits hshort

/-- What is parsed is the beginning of the stream. -/
theorem parseRecords_split (s : List UInt8) : ∃ recs rest, parseRecords s = some recs ∧
    s = encodeAll recs ++ rest ∧ Incomplete rest := by
  have hsplits := recordFraming.splits_frames s
  have hfits := hsplits.fits
  obtain ⟨rest, hs, hrest⟩ := hsplits.join_append
  have hframes := map_frame_ofFrame hfits
  refine ⟨(recordFraming.frames s).map ofFrame, rest, ?_, ?_, (incomplete_iff rest).mpr hrest⟩
  · rw [← hframes] at hsplits
    refine parseRecords_splits hsplits fun r hr => ?_
    obtain ⟨f, hf, rfl⟩ := List.mem_map.mp hr
    exact ofFrame_payload (hfits f hf)
  · rw [encodeAll_eq, hframes]
    exact hs

/-! ### `PutRec` -/

theorem putRec_eq (s : List UInt8) (type : UInt8) (p : List UInt8) :
    putRec s type p = s ++ (Record.mk type 0x0303 p).encode := by
  have hlow : UInt8.ofNat (p.length % 256) = UInt8.ofNat p.length := by
    rw [← UInt8.toNat_inj, UInt8.toNat_ofNat', UInt8.toNat_ofNat', Nat.mod_mod]
  have hver : beBytes 2 (0x0303 : UInt16).toNat = [0x03, 0x03] := by decide
  rw [putRec, hlow, List.append_assoc, Record.encode, hver, beBytes_two]
  rfl

/-- Records that are put one behind the other. -/
def putAll (s : List UInt8) (ms : List (UInt8 × List UInt8)) : List UInt8 :=
  ms.foldl (fun s m => putRec s m.1 m.2) s

theorem putAll_eq (s : List UInt8) (ms : List (UInt8 × List UInt8)) :
    putAll s ms = s ++ encodeAll (ms.map fun m => ⟨m.1, 0x0303, m.2⟩) := by
  induction ms generalizing s with
  | nil => simp [putAll, encodeAll]
  | cons m ms ih =>
    have hstep : putAll s (m :: ms) = putAll (putRec s m.1 m.2) ms := rfl
    rw [hstep, ih, putRec_eq, List.append_assoc]
    rfl

/-- The records of every stream encode to its beginning, and what is left is no whole record. Records
of at most 65535 bytes each, with no whole record behind them, are parsed as they are. -/
theorem parseRecords_lossless :
    (∀ s, ∃ recs rest, parseRecords s = some recs ∧ s = encodeAll recs ++ rest ∧
      Incomplete rest) ∧
    (∀ recs rest, (∀ r ∈ recs, r.payload.length ≤ 65535) → Incomplete rest →
      parseRecords (encodeAll recs ++ rest) = some recs) ∧
    ∀ ms rest, (∀ m ∈ ms, m.2.length ≤ 65535) → Incomplete rest →
      parseRecords (putAll [] ms ++ rest) = some (ms.map fun m => ⟨m.1, 0x0303, m.2⟩) := by
  refine ⟨parseRecords_split, fun recs rest => parseRecords_encodeAll, fun ms rest hms hrest => ?_⟩
  rw [putAll_eq, List.nil_append]
  refine parseRecords_encodeAll (fun r hr => ?_) hrest
  obtain ⟨m, hm, rfl⟩ := List.mem_map.mp hr
  exact hms m hm

/-- An empty record, one of two bytes, and a header that announces more than follows it. -/
theorem parseRecords_lossless_short :
    parseRecords (encodeAll [⟨22, 0x0301, []⟩, ⟨23, 0x0303, [1, 2]⟩] ++ [23, 3, 3, 0, 2, 9]) =
      some [⟨22, 0x0301, []⟩, ⟨23, 0x0303, [1, 2]⟩] := by
  refine parseRecords_lossless.2.1 _ _ (by decide) fun _ => ?_
  decide

end NetDebugger.Tls
