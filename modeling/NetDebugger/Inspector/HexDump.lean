import NetDebugger.Lib.Numerals
import NetDebugger.Tls.Keylog

/-! The hex dump of `ui.cpp`, in which the Raw tab and the packet list show bytes.  Whatever rows are
in view, the bytes are read back from them, at the offsets that the rows state. -/

namespace NetDebugger

open Lib Tls

/-! ### The rows -/

/-- `%X`. -/
def upperHex (n : Nat) : List UInt8 :=
  (Nat.toDigits 16 n).map fun c => UInt8.ofNat c.toUpper.toNat

/-- A width with zeros in front. -/
def zeroPadded (width : Nat) (s : List UInt8) : List UInt8 :=
  List.replicate (width - s.length) 0x30 ++ s

/-- The three texts of a row. -/
structure HexRow where
  line : List UInt8
  hex : List UInt8
  asc : List UInt8
deriving DecidableEq

/-- A cell of the `hex` column; there is no byte behind the end. -/
def hexCell : Option UInt8 → List UInt8
  | some b => snprintf 4 (zeroPadded 2 (upperHex b.toNat) ++ text " ")
  | none => text "   "

def ascCell : Option UInt8 → UInt8
  | some b => if 0x20 ≤ b ∧ b < 0x7F then b else 0x2E
  | none => 0x20

def perRow : Nat := 16

def hexRow (buf : List UInt8) (r : Nat) : HexRow :=
  let base := r * perRow
  { line := snprintf 8 (zeroPadded 6 (upperHex base))
    hex := (List.range' base perRow).flatMap fun idx => hexCell buf[idx]?
    asc := (List.range' base perRow).map fun idx => ascCell buf[idx]? }

/-- The number of rows, cut to an `int`. -/
def hexRows (buf : List UInt8) : Int32 :=
  Int32.ofNat ((UInt64.ofNat (buf.length + perRow - 1)).toNat / perRow)

/-- `DrawHexDump` of the rows that the clipper has in view. -/
def drawHexDump (buf : List UInt8) (displayStart displayEnd : Nat) : List HexRow :=
  (List.range' displayStart (displayEnd - displayStart)).map (hexRow buf)

/-! ### Reading them -/

/-- The bytes of a `hex` column, up to its first blank cell. -/
def readCells : List UInt8 → List UInt8
  | h :: l :: _ :: rest =>
    match nib h, nib l with
    | some hi, some lo => UInt8.ofNat (hi * 16 + lo) :: readCells rest
    | _, _ => []
  | _ => []

def readHexDump (rows : List HexRow) : List UInt8 := rows.flatMap fun row => readCells row.hex

theorem nib_upper : ReadsDigits nib (fun c => UInt8.ofNat c.toUpper.toNat) 16 := by
  unfold ReadsDigits
  decide

theorem readCells_some (b : UInt8) (rest : List UInt8) :
    readCells (hexCell (some b) ++ rest) = b :: readCells rest := by
  have hcell : ∀ n < 256, ∃ h l, hexCell (some (UInt8.ofNat n)) = [h, l, 0x20] ∧
      nib h = some (n / 16) ∧ nib l = some (n % 16) := by
    have hall : ∀ n < 256, hexCell (some (UInt8.ofNat n)) =
          [(hexCell (some (UInt8.ofNat n)))[0]!, (hexCell (some (UInt8.ofNat n)))[1]!, 0x20] ∧
        nib (hexCell (some (UInt8.ofNat n)))[0]! = some (n / 16) ∧
        nib (hexCell (some (UInt8.ofNat n)))[1]! = some (n % 16) := by
      decide +kernel
    exact fun n hn => ⟨_, _, hall n hn⟩
  obtain ⟨h, l, hcell, hhi, hlo⟩ := hcell b.toNat b.toNat_lt
  rw [UInt8.ofNat_toNat] at hcell
  rw [hcell, List.cons_append, List.cons_append, List.cons_append, List.nil_append, readCells, hhi,
    hlo]
  dsimp only
  rw [Nat.div_add_mod', UInt8.ofNat_toNat]

theorem readCells_none (rest : List UInt8) : readCells (hexCell none ++ rest) = [] := rfl

/-- The cells from an index on read as the bytes there. -/
theorem readCells_range (buf : List UInt8) (base n : Nat) :
    readCells ((List.range' base n).flatMap fun idx => hexCell buf[idx]?) =
      (buf.drop base).take n := by
  induction n generalizing base with
  | zero => rw [List.take_zero]; rfl
  | succ n ih =>
    rw [List.range'_succ, List.flatMap_cons]
    cases hbyte : buf[base]? with
    | none =>
      rw [readCells_none, List.drop_eq_nil_of_le (List.getElem?_eq_none_iff.mp hbyte), List.take_nil]
    | some b =>
      obtain ⟨hlt, rfl⟩ := List.getElem?_eq_some_iff.mp hbyte
      rw [readCells_some, ih, List.drop_eq_getElem_cons hlt, List.take_succ_cons]

/-- Rows one behind the other read as the bytes one behind the other. -/
theorem readHexDump_rows (buf : List UInt8) (first n : Nat) :
    readHexDump ((List.range' first n).map (hexRow buf)) =
      (buf.drop (first * perRow)).take (n * perRow) := by
  induction n generalizing first with
  | zero => rw [Nat.zero_mul, List.take_zero]; rfl
  | succ n ih =>
    have hrow : readCells (hexRow buf first).hex = (buf.drop (first * perRow)).take perRow :=
      readCells_range buf (first * perRow) perRow
    have hrest := ih (first + 1)
    rw [readHexDump] at hrest ⊢
    rw [List.range'_succ, List.map_cons, List.flatMap_cons, hrow, hrest, Nat.succ_mul n,
      Nat.add_comm (n * perRow), List.take_add, List.drop_drop, Nat.succ_mul first]

theorem cell_length (b : Option UInt8) : (hexCell b).length = 3 := by
  cases b with
  | none => rfl
  | some b =>
    have hall : ∀ n < 256, (hexCell (some (UInt8.ofNat n))).length = 3 := by decide +kernel
    have hb := hall b.toNat b.toNat_lt
    rwa [UInt8.ofNat_toNat] at hb

theorem cells_length (cells : List (Option UInt8)) :
    (cells.flatMap hexCell).length = 3 * cells.length := by
  induction cells with
  | nil => rfl
  | cons b cells ih =>
    rw [List.flatMap_cons, List.length_append, cell_length, ih, List.length_cons]
    omega

/-- The columns are aligned. -/
theorem hexRow_aligned (buf : List UInt8) (r : Nat) :
    (hexRow buf r).hex.length = 3 * perRow ∧ (hexRow buf r).asc.length = perRow := by
  constructor
  · have hcells : (hexRow buf r).hex =
        ((List.range' (r * perRow) perRow).map (buf[·]?)).flatMap hexCell := by
      rw [List.flatMap_map]
      rfl
    rw [hcells, cells_length, List.length_map, List.length_range']
  · rw [hexRow, List.length_map, List.length_range']

/-- A row states its offset where seven digits are enough for it. -/
theorem hexRow_line (buf : List UInt8) {r : Nat} (hr : r * perRow < 16 ^ 7) :
    valueOf nib 16 (hexRow buf r).line = some (r * perRow) := by
  have hdigits : (upperHex (r * perRow)).length ≤ 7 := by
    rw [upperHex, List.length_map]
    exact (Nat.length_toDigits_le_iff (by decide) (by decide)).mpr hr
  have hwhole : (zeroPadded 6 (upperHex (r * perRow))).length ≤ 7 := by
    rw [zeroPadded, List.length_append, List.length_replicate]
    omega
  show valueOf nib 16 (snprintf 8 (zeroPadded 6 (upperHex (r * perRow)))) = _
  rw [snprintf, List.take_of_length_le hwhole, zeroPadded, valueOf_padded (by decide)]
  exact valueOf_toDigits (by decide) nib_upper _

/-- There are rows for all of the bytes where the number of the rows is an `int`. -/
theorem hexRows_le {buf : List UInt8} (h : buf.length ≤ 2 ^ 35 - 16) :
    buf.length ≤ (hexRows buf).toNatClampNeg * perRow := by
  have hsize : (UInt64.ofNat (buf.length + perRow - 1)).toNat = buf.length + 15 :=
    UInt64.toNat_ofNat_of_lt' (show buf.length + 15 < 2 ^ 64 by omega)
  have hrows : (hexRows buf).toNatClampNeg = (buf.length + 15) / 16 := by
    rw [hexRows, hsize]
    exact Int32.toNatClampNeg_ofNat_of_lt (show (buf.length + 15) / 16 < 2 ^ 31 by omega)
  rw [hrows, perRow]
  omega

/-- There are no more rows than an `int` counts. -/
theorem hexRows_lt (buf : List UInt8) : (hexRows buf).toNatClampNeg * perRow ≤ 2 ^ 35 - 16 := by
  have hlt := (hexRows buf).toNatClampNeg_lt
  rw [perRow]
  omega

/-- Of every buffer and every range of rows in view: the bytes are read back, the rows state the
offsets of their bytes, and the columns are aligned.  All of the rows show all of the buffer, up to 32
GiB. -/
theorem hexDump_exact (buf : List UInt8) (displayStart displayEnd : Nat) :
    readHexDump (drawHexDump buf displayStart displayEnd) =
        (buf.drop (displayStart * perRow)).take ((displayEnd - displayStart) * perRow) ∧
      (readHexDump (drawHexDump buf 0 (hexRows buf).toNatClampNeg) = buf ↔
        buf.length ≤ 2 ^ 35 - 16) ∧
      ∀ i row, (drawHexDump buf displayStart displayEnd)[i]? = some row →
        readCells row.hex = (buf.drop ((displayStart + i) * perRow)).take perRow ∧
        row.hex.length = 3 * perRow ∧ row.asc.length = perRow ∧
        ((displayStart + i) * perRow < 16 ^ 7 →
          valueOf nib 16 row.line = some ((displayStart + i) * perRow)) := by
  refine ⟨readHexDump_rows .., ?_, fun i row hrow => ?_⟩
  · rw [drawHexDump, readHexDump_rows, Nat.zero_mul, List.drop_zero, Nat.sub_zero,
      List.take_eq_self_iff]
    exact ⟨fun hall => Nat.le_trans hall (hexRows_lt buf), hexRows_le⟩
  · rw [drawHexDump, List.getElem?_map] at hrow
    obtain ⟨r, hr, rfl⟩ := Option.map_eq_some_iff.mp hrow
    obtain ⟨hlt, hget⟩ := List.getElem?_eq_some_iff.mp hr
    rw [List.getElem_range', Nat.one_mul] at hget
    obtain ⟨hhex, hasc⟩ := hexRow_aligned buf r
    rw [hget]
    exact ⟨readCells_range buf (r * perRow) perRow, hhex, hasc, hexRow_line buf⟩

example : drawHexDump (text "GET / HTTP/1.1\r\n\r\n") 1 2 =
    [⟨text "000010", text "0D 0A " ++ List.replicate 42 0x20,
      text ".." ++ List.replicate 14 0x20⟩] := by
  decide +kernel

end NetDebugger
