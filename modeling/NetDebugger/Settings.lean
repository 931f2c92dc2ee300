import NetDebugger.Http.Message
import NetDebugger.Lib.Lines
import NetDebugger.Lib.Runs

/-! The options that `settings.cpp` keeps across runs, in a file of lines `key=value`.  What a run
saves is what the next one loads, as long as the path of the driver is one line. -/

namespace NetDebugger

open Lib Http

/-! ### Numbers in text -/

/-- `%d`. -/
def signedDecimal (n : Int32) : Bytes :=
  if n.toInt < 0 then 0x2D :: decimal n.toInt.natAbs else decimal n.toInt.natAbs

/-- The `%f` of `printf`, `atof`, and the `%f` of `sscanf_s` with what it leaves. -/
structure FloatText (F : Type) where
  print : F → Bytes
  atof : Bytes → F
  scan : Bytes → Option (F × Bytes)

/-- A printed number is short, has none of the marks of the file in it, and is read back as the
number that it shows, up to its end or a comma. -/
structure FloatText.Lawful {F : Type} (T : FloatText F) (reread : F → F) : Prop where
  length : ∀ x, (T.print x).length ≤ 300
  marks : ∀ x, ∀ c ∈ T.print x, c ≠ 0 ∧ c ≠ 0x0A ∧ c ≠ 0x0D
  atof : ∀ x, T.atof (T.print x) = reread x
  scan : ∀ x rest, (∀ c ∈ rest.head?, c = 0x2C) → T.scan (T.print x ++ rest) = some (reread x, rest)

/-! ### The options -/

/-- A string in an array of `size` bytes. -/
structure CharArray (size : Nat) where
  bytes : Bytes
  short : bytes.length < size
  noNul : ∀ c ∈ bytes, c ≠ 0
deriving DecidableEq

/-- The part of `AppState` that is kept. -/
structure Options (F : Type) where
  accent : F × F × F
  fontScale : F
  animations : Bool
  multiViewport : Bool
  payloadCapMB : Int32
  autoScroll : Bool
  showClosed : Bool
  proxyPort : Int32
  useSystemProxy : Bool
  sysPath : CharArray 512
deriving DecidableEq

section

variable {F : Type} (T : FloatText F)

def boolText (b : Bool) : Bytes := if b then text "1" else text "0"

/-- The lines of `KndSettings::Save`, by key and value. -/
def Options.entries (o : Options F) : List (Bytes × Bytes) :=
  [(text "accent", T.print o.accent.1 ++ 0x2C :: (T.print o.accent.2.1 ++
      0x2C :: T.print o.accent.2.2)),
    (text "fontScale", T.print o.fontScale), (text "animations", boolText o.animations),
    (text "multiViewport", boolText o.multiViewport),
    (text "payloadCapMB", signedDecimal o.payloadCapMB), (text "autoScroll", boolText o.autoScroll),
    (text "showClosed", boolText o.showClosed), (text "proxyPort", signedDecimal o.proxyPort),
    (text "useSystemProxy", boolText o.useSystemProxy), (text "sysPath", o.sysPath.bytes)]

/-- `KndSettings::Save` to a file that can be written. -/
def Options.save (o : Options F) : Bytes :=
  writeLines 0x0A ((o.entries T).map fun e => e.1 ++ 0x3D :: e.2)

/-- `sscanf_s(val, "%f,%f,%f", ..)`, which stores what it gets to. -/
def scanAccent (accent : F × F × F) (val : Bytes) : F × F × F :=
  match T.scan val with
  | none => accent
  | some (x, rest) =>
    let accent := (x, accent.2.1, accent.2.2)
    match rest with
    | 0x2C :: rest =>
      match T.scan rest with
      | none => accent
      | some (y, rest) =>
        let accent := (x, y, accent.2.2)
        match rest with
        | 0x2C :: rest =>
          match T.scan rest with
          | none => accent
          | some (z, _) => (x, y, z)
        | _ => accent
    | _ => accent

/-- `atoi` into an `int`. -/
def atoi32 (val : Bytes) : Int32 := Int32.ofInt (atoi val)

/-- `strncpy_s` of a string, with `_TRUNCATE`. -/
def strncpyTruncate (size : Nat) (h : 0 < size) (val : Bytes) : CharArray size where
  bytes := (cString val).take (size - 1)
  short := by
    rw [List.length_take]
    omega
  noNul := fun _ hc => of_decide_eq_true
    (List.mem_takeWhile_imp (p := fun c => decide (c ≠ 0)) (List.mem_of_mem_take hc))

/-- What `KndSettings::Load` does with a key and its value. -/
def Options.assign (o : Options F) (key val : Bytes) : Options F :=
  if key = text "accent" then { o with accent := scanAccent T o.accent val }
  else if key = text "fontScale" then { o with fontScale := T.atof val }
  else if key = text "animations" then { o with animations := atoi32 val ≠ 0 }
  else if key = text "multiViewport" then { o with multiViewport := atoi32 val ≠ 0 }
  else if key = text "payloadCapMB" then { o with payloadCapMB := atoi32 val }
  else if key = text "autoScroll" then { o with autoScroll := atoi32 val ≠ 0 }
  else if key = text "showClosed" then { o with showClosed := atoi32 val ≠ 0 }
  else if key = text "proxyPort" then { o with proxyPort := atoi32 val }
  else if key = text "useSystemProxy" then { o with useSystemProxy := atoi32 val ≠ 0 }
  else if key = text "sysPath" then { o with sysPath := strncpyTruncate 512 (by decide) val }
  else o

/-- One round of the loop of `KndSettings::Load`. -/
def Options.loadLine (o : Options F) (line : Bytes) : Options F :=
  let line := (cString line).takeWhile fun c => decide (InLine c)
  let key := line.takeWhile (· ≠ 0x3D)
  if key.length < line.length then o.assign T key (line.drop (key.length + 1)) else o

/-- `KndSettings::Load` of a file that can be read. -/
def Options.load (o : Options F) (contents : Bytes) : Options F :=
  (readLines 1023 0x0A contents.length contents).foldl (Options.loadLine T) o

end

/-! ### Numbers -/

theorem decimal_eq (n : Nat) : decimal n =
    (if n < 10 then [] else decimal (n / 10)) ++ [UInt8.ofNat (0x30 + n % 10)] := by
  have hdigit : ∀ d < 10, UInt8.ofNat (Nat.digitChar d).toNat = UInt8.ofNat (0x30 + d) := by
    decide
  unfold decimal
  rw [Nat.toDigits_eq_if (by decide)]
  split
  · next hn =>
    rw [List.map_singleton, hdigit n hn, Nat.mod_eq_of_lt hn]
    rfl
  · rw [List.map_append, List.map_singleton, hdigit (n % 10) (Nat.mod_lt n (by decide))]

theorem digitsVal_append {base acc : Nat} {s : Bytes}
    (hs : ∀ c ∈ s, (digitVal base c).isSome = true) (t : Bytes) :
    digitsVal base acc (s ++ t) = digitsVal base (digitsVal base acc s) t := by
  induction s generalizing acc with
  | nil => rfl
  | cons c s ih =>
    obtain ⟨v, hv⟩ := Option.isSome_iff_exists.mp (hs c (List.mem_cons_self ..))
    simp only [List.cons_append, digitsVal, hv]
    exact ih fun d hd => hs d (List.mem_cons_of_mem _ hd)

theorem numeral_decimal (n : Nat) : Numeral 10 (decimal n) n := by
  have hlast : ∀ d < 10, digitVal 10 (UInt8.ofNat (0x30 + d)) = some d := by decide
  have hvalue := hlast (n % 10) (Nat.mod_lt n (by decide))
  induction n using Nat.strongRecOn with
  | ind n ih =>
    rw [decimal_eq]
    by_cases hn : n < 10
    · rw [if_pos hn, List.nil_append]
      refine ⟨List.cons_ne_nil _ _, fun c hc => ?_, ?_⟩
      · rw [List.mem_singleton.mp hc, hvalue]
        rfl
      · simp only [digitsVal, hvalue]
        omega
    · have hfront := ih (n / 10) (by omega) (hlast _ (Nat.mod_lt _ (by decide)))
      rw [if_neg hn]
      refine ⟨by simp, fun c hc => ?_, ?_⟩
      · rcases List.mem_append.mp hc with hc | hc
        · exact hfront.digits c hc
        · rw [List.mem_singleton.mp hc, hvalue]
          rfl
      · rw [digitsVal_append hfront.digits, hfront.value]
        simp only [digitsVal, hvalue]
        omega

theorem atoi_minus {s : Bytes} {v : Nat} (h : Numeral 10 s v) (hv : v ≤ 2 ^ 31) :
    atoi (0x2D :: s) = -v := by
  have hcString : cString (0x2D :: s) = 0x2D :: s := by
    refine List.takeWhile_eq_self_iff.mpr fun c hc => decide_eq_true ?_
    rcases List.mem_cons.mp hc with rfl | hc
    · decide
    · have hvisible := (digitLike (by decide) (h.digits c hc)).visible
      rintro rfl
      exact absurd hvisible (by decide)
  have hspace : (0x2D :: s).dropWhile isspace = 0x2D :: s := List.dropWhile_cons_of_neg (by decide)
  unfold atoi
  rw [hcString, hspace]
  simp only [sign, h.value, if_true, Nat.min_eq_left hv]

/-- What `%d` prints is read back. -/
theorem atoi32_signedDecimal (n : Int32) : atoi32 (signedDecimal n) = n := by
  have hlow := n.le_toInt
  have hhigh := n.toInt_lt
  have hnumeral := numeral_decimal n.toInt.natAbs
  have hatoi : atoi (signedDecimal n) = n.toInt := by
    unfold signedDecimal
    split
    · rw [atoi_minus hnumeral (by omega)]
      omega
    · rw [hnumeral.atoi (by omega)]
      omega
  rw [atoi32, hatoi, Int32.ofInt_toInt]

theorem atoi32_boolText (b : Bool) : decide (atoi32 (boolText b) ≠ 0) = b := by
  cases b <;> decide +kernel

/-! ### Lines -/

/-- A text that goes into a line: no end of a line, and no end of a string. -/
def OneLine (s : Bytes) : Prop := ∀ c ∈ s, c ≠ 0 ∧ InLine c

instance (s : Bytes) : Decidable (OneLine s) :=
  inferInstanceAs (Decidable (∀ c ∈ s, c ≠ 0 ∧ InLine c))

theorem OneLine.append {s t : Bytes} (hs : OneLine s) (ht : OneLine t) : OneLine (s ++ t) :=
  fun c hc => (List.mem_append.mp hc).elim (hs c) (ht c)

theorem OneLine.cons {c : UInt8} {s : Bytes} (hc : c ≠ 0 ∧ InLine c) (hs : OneLine s) :
    OneLine (c :: s) := List.forall_mem_cons.mpr ⟨hc, hs⟩

theorem Http.Numeral.oneLine {s : Bytes} {v : Nat} (h : Numeral 10 s v) : OneLine s := by
  intro c hc
  have hvisible := (digitLike (by decide) (h.digits c hc)).visible
  refine ⟨?_, ?_, ?_⟩ <;> rintro rfl <;> exact absurd hvisible (by decide)

theorem signedDecimal_oneLine (n : Int32) : OneLine (signedDecimal n) := by
  have hdigits := (numeral_decimal n.toInt.natAbs).oneLine
  unfold signedDecimal
  split
  · exact .cons (by decide) hdigits
  · exact hdigits

theorem signedDecimal_length (n : Int32) : (signedDecimal n).length ≤ 300 := by
  have hlow := n.le_toInt
  have hhigh := n.toInt_lt
  have hdigits : (decimal n.toInt.natAbs).length ≤ 10 := by
    rw [decimal, List.length_map]
    exact (Nat.length_toDigits_le_iff (by decide) (by decide)).mpr (by omega)
  unfold signedDecimal
  split
  · rw [List.length_cons]
    omega
  · omega

theorem boolText_line (b : Bool) : OneLine (boolText b) ∧ (boolText b).length ≤ 300 := by
  cases b <;> decide

section

variable {F : Type} {T : FloatText F} {reread : F → F}

/-- The rest of the line is not looked at. -/
theorem loadLine_entry (o : Options F) {key val : Bytes} (hkey : OneLine key)
    (heq : ∀ c ∈ key, c ≠ 0x3D) (hval : ∀ c ∈ val, c ≠ 0) :
    o.loadLine T (key ++ 0x3D :: val ++ [0x0A]) =
      o.assign T key (val.takeWhile fun c => decide (InLine c)) := by
  have hcString : cString (key ++ 0x3D :: val ++ [0x0A]) = key ++ 0x3D :: val ++ [0x0A] := by
    refine List.takeWhile_eq_self_iff.mpr fun c hc => decide_eq_true ?_
    simp only [List.mem_append, List.mem_cons, List.not_mem_nil, or_false] at hc
    rcases hc with (hc | rfl | hc) | rfl
    · exact (hkey c hc).1
    · decide
    · exact hval c hc
    · decide
  have hline : (key ++ 0x3D :: val ++ [0x0A]).takeWhile (fun c => decide (InLine c)) =
      key ++ 0x3D :: val.takeWhile fun c => decide (InLine c) := by
    rw [List.append_assoc, List.takeWhile_append_of_pos fun c hc => decide_eq_true (hkey c hc).2,
      List.cons_append, List.takeWhile_cons_of_pos (by decide)]
    congr 2
    by_cases hall : ∀ c ∈ val, InLine c
    · rw [List.takeWhile_append_of_pos fun c hc => decide_eq_true (hall c hc),
        List.takeWhile_cons_of_neg (by decide), List.append_nil,
        List.takeWhile_eq_self_iff.mpr fun c hc => decide_eq_true (hall c hc)]
    · rw [List.takeWhile_append, if_neg]
      intro hlen
      apply hall
      have hself := (@List.takeWhile_prefix _ val fun c => decide (InLine c)).eq_of_length hlen
      exact fun c hc => of_decide_eq_true (List.takeWhile_eq_self_iff.mp hself c hc)
  have hhead : (key ++ 0x3D :: val.takeWhile fun c => decide (InLine c)).takeWhile (· ≠ 0x3D) =
      key := by
    rw [List.takeWhile_append_of_pos fun c hc => decide_eq_true (heq c hc),
      List.takeWhile_cons_of_neg (by decide), List.append_nil]
  unfold Options.loadLine
  rw [hcString, hline]
  dsimp only
  rw [hhead, if_pos (by rw [List.length_append, List.length_cons]; omega),
    List.drop_length_add_append]
  rfl

/-- A text in front of the `=` of a line. -/
def IsKey (key : Bytes) : Prop := OneLine key ∧ (∀ c ∈ key, c ≠ 0x3D) ∧ key.length ≤ 20

instance (key : Bytes) : Decidable (IsKey key) := by
  unfold IsKey
  infer_instance

/-- What a line of the file is made of. -/
structure EntryOk (e : Bytes × Bytes) : Prop where
  key : IsKey e.1
  value : OneLine e.2 ∧ e.2.length ≤ 1000

theorem EntryOk.fits {e : Bytes × Bytes} (h : EntryOk e) :
    FitsLine 1023 0x0A (e.1 ++ 0x3D :: e.2) where
  clean := by
    intro c hc
    rcases List.mem_append.mp hc with hc | hc
    · exact (h.key.1 c hc).2.2
    · rcases List.mem_cons.mp hc with rfl | hc
      · decide
      · exact (h.value.1 c hc).2.2
  length := by
    have hkey := h.key.2.2
    have hvalue := h.value.2
    rw [List.length_append, List.length_cons]
    omega

theorem EntryOk.loadLine {e : Bytes × Bytes} (h : EntryOk e) (o : Options F) :
    o.loadLine T (e.1 ++ 0x3D :: e.2 ++ [0x0A]) = o.assign T e.1 e.2 := by
  rw [loadLine_entry o h.key.1 h.key.2.1 fun c hc => (h.value.1 c hc).1,
    List.takeWhile_eq_self_iff.mpr fun c hc => decide_eq_true (h.value.1 c hc).2]

theorem FloatText.Lawful.oneLine (hT : T.Lawful reread) (x : F) : OneLine (T.print x) := by
  intro c hc
  obtain ⟨hnul, hlf, hcr⟩ := hT.marks x c hc
  exact ⟨hnul, hcr, hlf⟩

theorem entries_ok (hT : T.Lawful reread) {o : Options F} (hpath : OneLine o.sysPath.bytes) :
    ∀ e ∈ o.entries T, EntryOk e := by
  have hbool : ∀ (key : Bytes) (b : Bool), IsKey key → EntryOk (key, boolText b) := fun key b hkey =>
    ⟨hkey, (boolText_line b).1, Nat.le_trans (boolText_line b).2 (by decide)⟩
  have hint : ∀ (key : Bytes) (n : Int32), IsKey key → EntryOk (key, signedDecimal n) :=
    fun key n hkey =>
    ⟨hkey, signedDecimal_oneLine n, Nat.le_trans (signedDecimal_length n) (by decide)⟩
  have haccent : EntryOk (text "accent", T.print o.accent.1 ++ 0x2C :: (T.print o.accent.2.1 ++
      0x2C :: T.print o.accent.2.2)) := by
    have hkey : IsKey (text "accent") := by decide
    refine ⟨hkey, (hT.oneLine _).append (.cons (by decide) ((hT.oneLine _).append
      (.cons (by decide) (hT.oneLine _)))), ?_⟩
    have hx := hT.length o.accent.1
    have hy := hT.length o.accent.2.1
    have hz := hT.length o.accent.2.2
    simp only [List.length_append, List.length_cons]
    omega
  have hscale : EntryOk (text "fontScale", T.print o.fontScale) :=
    ⟨(by decide : IsKey (text "fontScale")), hT.oneLine _, Nat.le_trans (hT.length _) (by decide)⟩
  have hsys : EntryOk (text "sysPath", o.sysPath.bytes) :=
    ⟨(by decide : IsKey (text "sysPath")), hpath,
      Nat.le_trans (Nat.le_of_lt o.sysPath.short) (by decide)⟩
  simp only [Options.entries, List.forall_mem_cons]
  exact ⟨haccent, hscale, hbool _ _ (by decide), hbool _ _ (by decide), hint _ _ (by decide),
    hbool _ _ (by decide), hbool _ _ (by decide), hint _ _ (by decide), hbool _ _ (by decide), hsys,
    nofun⟩

/-! ### Saved and loaded -/

/-- The options as their text shows them. -/
def Options.shown (reread : F → F) (o : Options F) : Options F :=
  { o with
    accent := (reread o.accent.1, reread o.accent.2.1, reread o.accent.2.2)
    fontScale := reread o.fontScale }

theorem scanAccent_printed (hT : T.Lawful reread) (accent : F × F × F) (x y z : F) :
    scanAccent T accent (T.print x ++ 0x2C :: (T.print y ++ 0x2C :: T.print z)) =
      (reread x, reread y, reread z) := by
  have hx := hT.scan x (0x2C :: (T.print y ++ 0x2C :: T.print z)) (by simp)
  have hy := hT.scan y (0x2C :: T.print z) (by simp)
  have hz := hT.scan z [] (by simp)
  rw [List.append_nil] at hz
  simp only [scanAccent, hx, hy, hz]

theorem strncpyTruncate_whole {size : Nat} (h : 0 < size) (s : CharArray size) :
    strncpyTruncate size h s.bytes = s := by
  obtain ⟨bytes, hshort, hnul⟩ := s
  have hcString : cString bytes = bytes :=
    List.takeWhile_eq_self_iff.mpr fun c hc => decide_eq_true (hnul c hc)
  have htake : bytes.take (size - 1) = bytes := List.take_of_length_le (by omega)
  simp only [strncpyTruncate, hcString, htake]

/-- Every key sets its own option. -/
theorem assign_entries (hT : T.Lawful reread) (start o : Options F) :
    (o.entries T).foldl (fun s e => s.assign T e.1 e.2) start = o.shown reread := by
  obtain ⟨⟨x, y, z⟩, fontScale, animations, multiViewport, payloadCapMB, autoScroll, showClosed,
    proxyPort, useSystemProxy, sysPath⟩ := o
  simp only [Options.entries, List.foldl_cons, List.foldl_nil]
  have haccent (s : Options F) (val : Bytes) : s.assign T (text "accent") val =
      { s with accent := scanAccent T s.accent val } := rfl
  have hscale (s : Options F) (val : Bytes) : s.assign T (text "fontScale") val =
      { s with fontScale := T.atof val } := rfl
  have hanimations (s : Options F) (val : Bytes) : s.assign T (text "animations") val =
      { s with animations := atoi32 val ≠ 0 } := rfl
  have hviewport (s : Options F) (val : Bytes) : s.assign T (text "multiViewport") val =
      { s with multiViewport := atoi32 val ≠ 0 } := rfl
  have hcap (s : Options F) (val : Bytes) : s.assign T (text "payloadCapMB") val =
      { s with payloadCapMB := atoi32 val } := rfl
  have hscroll (s : Options F) (val : Bytes) : s.assign T (text "autoScroll") val =
      { s with autoScroll := atoi32 val ≠ 0 } := rfl
  have hclosed (s : Options F) (val : Bytes) : s.assign T (text "showClosed") val =
      { s with showClosed := atoi32 val ≠ 0 } := rfl
  have hport (s : Options F) (val : Bytes) : s.assign T (text "proxyPort") val =
      { s with proxyPort := atoi32 val } := rfl
  have hproxy (s : Options F) (val : Bytes) : s.assign T (text "useSystemProxy") val =
      { s with useSystemProxy := atoi32 val ≠ 0 } := rfl
  have hpath (s : Options F) (val : Bytes) : s.assign T (text "sysPath") val =
      { s with sysPath := strncpyTruncate 512 (by decide) val } := rfl
  rw [haccent, hscale, hanimations, hviewport, hcap, hscroll, hclosed, hport, hproxy, hpath]
  simp only [scanAccent_printed hT, hT.atof, atoi32_boolText, atoi32_signedDecimal,
    strncpyTruncate_whole, Options.shown]

theorem load_save (hT : T.Lawful reread) {o : Options F} (hpath : OneLine o.sysPath.bytes)
    (start : Options F) : start.load T (o.save T) = o.shown reread := by
  have hok := entries_ok hT hpath
  have hfits : ∀ body ∈ (o.entries T).map (fun e => e.1 ++ 0x3D :: e.2),
      FitsLine 1023 0x0A body := by
    intro body hbody
    obtain ⟨e, he, rfl⟩ := List.mem_map.mp hbody
    exact (hok e he).fits
  rw [Options.load, Options.save, readLines_writeLines hfits (Nat.le_refl _), List.map_map,
    List.foldl_map, ← assign_entries hT start o]
  exact List.foldl_ext _ _ _ fun s e he => (hok e he).loadLine s

theorem strncpyTruncate_oneLine {size : Nat} (h : 0 < size) {val : Bytes} (hval : OneLine val) :
    OneLine (strncpyTruncate size h val).bytes := fun c hc =>
  hval c (List.takeWhile_subset _ (List.mem_of_mem_take hc))

theorem assign_sysPath (o : Options F) (key val : Bytes) :
    (o.assign T key val).sysPath = o.sysPath ∨
      (o.assign T key val).sysPath = strncpyTruncate 512 (by decide) val := by
  have hskip : ∀ {c : Prop} [Decidable c] {x y : Options F}, x.sysPath = o.sysPath →
      (y.sysPath = o.sysPath ∨ y.sysPath = strncpyTruncate 512 (by decide) val) →
      (if c then x else y).sysPath = o.sysPath ∨
        (if c then x else y).sysPath = strncpyTruncate 512 (by decide) val := by
    intro c _ x y hx hy
    split
    · exact .inl hx
    · exact hy
  unfold Options.assign
  iterate 9 refine hskip rfl ?_
  split
  · exact .inr rfl
  · exact .inl rfl

theorem loadLine_oneLine {o : Options F} (ho : OneLine o.sysPath.bytes) (line : Bytes) :
    OneLine (o.loadLine T line).sysPath.bytes := by
  have hval : OneLine ((cString line).takeWhile fun c => decide (InLine c)) := by
    intro c hc
    have hnul := List.mem_takeWhile_imp (p := fun c => decide (c ≠ 0))
      (List.takeWhile_subset _ hc)
    have hin := List.mem_takeWhile_imp (p := fun c => decide (InLine c)) hc
    exact ⟨of_decide_eq_true hnul, of_decide_eq_true hin⟩
  unfold Options.loadLine
  dsimp only
  split
  · rcases assign_sysPath o _ _ with hpath | hpath
    · rw [hpath]
      exact ho
    · rw [hpath]
      exact strncpyTruncate_oneLine _ fun c hc => hval c (List.mem_of_mem_drop hc)
  · exact ho

/-- Whatever file is loaded, the path is one line. -/
theorem load_oneLine {start : Options F} (hstart : OneLine start.sysPath.bytes) (contents : Bytes) :
    OneLine (start.load T contents).sysPath.bytes := by
  unfold Options.load
  generalize readLines 1023 0x0A contents.length contents = lines
  induction lines generalizing start with
  | nil => exact hstart
  | cons line lines ih => exact ih (loadLine_oneLine hstart line)

/-- The options come back out of their file, a float as its text shows it, exactly where the path of
the driver is one line. -/
theorem load_save_iff (hT : T.Lawful reread) {start : Options F}
    (hstart : OneLine start.sysPath.bytes) (o : Options F) :
    start.load T (o.save T) = o.shown reread ↔ OneLine o.sysPath.bytes := by
  constructor
  · intro heq
    have hloaded := load_oneLine (T := T) hstart (o.save T)
    rw [heq] at hloaded
    exact hloaded
  · exact fun hpath => load_save hT hpath start

end

/-- Floats that are `0` or `1`. -/
def bitText : FloatText Bool where
  print x := [if x then 0x31 else 0x30, 0x2E, 0x30, 0x30, 0x30, 0x30, 0x30, 0x30]
  atof s := s.head? = some 0x31
  scan s := s.head?.map fun c => (c = 0x31, s.drop 8)

theorem bitText_lawful : bitText.Lawful id where
  length x := Nat.le_of_ble_eq_true rfl
  marks x := by cases x <;> decide
  atof x := by cases x <;> rfl
  scan x rest _ := by cases x <;> rfl

/-- The options of a first start. -/
def firstOptions : Options Bool where
  accent := (false, true, false)
  fontScale := true
  animations := true
  multiViewport := true
  payloadCapMB := 64
  autoScroll := true
  showClosed := false
  proxyPort := 8888
  useSystemProxy := false
  sysPath := strncpyTruncate 512 (by decide) (text "driver.sys")

example : firstOptions.load bitText (firstOptions.save bitText) = firstOptions := by decide +kernel

/-! ### Runs of the program -/

section

variable {F : Type} {T : FloatText F} {reread : F → F}

/-- The file, the options of the program while it runs, and what was saved last. -/
structure Sessions (F : Type) where
  file : Option Bytes
  live : Option (Options F)
  saved : Option (Options F)
deriving DecidableEq

inductive SessionEvent (F : Type)
  | starts (readable : Bool)
  | changes (o : Options F)
  | exits (writable : Bool)
  /-- The program ends without the end of `WinMain`. -/
  | dies

variable (T) in
def Sessions.step (default : Options F) (s : Sessions F) : SessionEvent F → Option (Sessions F)
  | .starts readable =>
    match s.live with
    | some _ => none
    | none =>
      match s.file with
      | some contents =>
        some { s with live := some (if readable then default.load T contents else default) }
      | none => some { s with live := some default }
  | .changes o => s.live.map fun _ => { s with live := some o }
  | .exits writable =>
    s.live.map fun o =>
      if writable then { file := some (o.save T), live := none, saved := some o }
      else { s with live := none }
  | .dies => s.live.map fun _ => { s with live := none }

/-- What is kept for the next start, behind the file `first`: the options saved last, as their text
shows them, and before that what the file says, or the defaults. -/
def Sessions.kept (T : FloatText F) (reread : F → F) (default : Options F) (first : Option Bytes)
    (s : Sessions F) : Options F :=
  match s.saved with
  | some o => o.shown reread
  | none => (first.map (default.load T)).getD default

/-- A start finds what is kept. One that cannot read the file finds the defaults. -/
def Sessions.Finds (T : FloatText F) (reread : F → F) (default : Options F) (first : Option Bytes)
    (s : Sessions F) : Prop :=
  s.live = none → ∀ readable, (s.step T default (.starts readable)).map Sessions.live =
    some (some (if readable then s.kept T reread default first else default))

/-- The file is there for what was saved last, and untouched where nothing was. -/
def Sessions.Remembers (T : FloatText F) (reread : F → F) (default : Options F) (first : Option Bytes)
    (s : Sessions F) : Prop :=
  (s.file.map (default.load T)).getD default = s.kept T reread default first

/-- Only one line is saved for the path. -/
def Sessions.SavesLine (s : Sessions F) : SessionEvent F → Prop
  | .exits true => ∀ o ∈ s.live, OneLine o.sysPath.bytes
  | _ => True

instance (s : Sessions F) (e : SessionEvent F) : Decidable (s.SavesLine e) := by
  unfold Sessions.SavesLine
  split <;> infer_instance

theorem Sessions.finds_iff {default : Options F} {first : Option Bytes} {s : Sessions F}
    (hlive : s.live = none) :
    s.Finds T reread default first ↔ s.Remembers T reread default first := by
  have hstart : ∀ readable, (s.step T default (.starts readable)).map Sessions.live =
      some (some (if readable then (s.file.map (default.load T)).getD default else default)) := by
    intro readable
    simp only [Sessions.step, hlive]
    cases s.file with
    | none => simp
    | some contents => rfl
  unfold Sessions.Finds Sessions.Remembers
  simp only [hstart, hlive, true_implies, Option.some.injEq]
  refine ⟨fun h => h true, fun h readable => ?_⟩
  rw [h]

/-- A program that runs is not started. -/
theorem Sessions.finds_of_live {default : Options F} {first : Option Bytes} {s : Sessions F}
    {o : Options F} (hlive : s.live = some o) : s.Finds T reread default first := by
  intro hnone
  rw [hlive] at hnone
  contradiction

theorem Sessions.remembers_saved {default : Options F} {first : Option Bytes} (o : Options F) :
    Sessions.Remembers T reread default first ⟨some (o.save T), none, some o⟩ ↔
      default.load T (o.save T) = o.shown reread := by
  rw [Sessions.Remembers, Option.map_some, Option.getD_some, Sessions.kept]

theorem Sessions.step_remembers (hT : T.Lawful reread) {default : Options F} {first : Option Bytes}
    {s t : Sessions F} {e : SessionEvent F} (hs : s.Remembers T reread default first)
    (hline : s.SavesLine e) (hstep : s.step T default e = some t) :
    t.Remembers T reread default first := by
  cases e with
  | starts readable =>
    simp only [Sessions.step] at hstep
    repeat' split at hstep
    all_goals first
      | contradiction
      | exact Option.some.inj hstep ▸ hs
  | changes o =>
    obtain ⟨-, -, rfl⟩ := Option.map_eq_some_iff.mp hstep
    exact hs
  | exits writable =>
    obtain ⟨o, ho, rfl⟩ := Option.map_eq_some_iff.mp hstep
    cases writable with
    | false => exact hs
    | true => exact (Sessions.remembers_saved o).mpr (load_save hT (hline o ho) default)
  | dies =>
    obtain ⟨-, -, rfl⟩ := Option.map_eq_some_iff.mp hstep
    exact hs

theorem Sessions.step_finds_iff (hT : T.Lawful reread) {default : Options F}
    (hdefault : OneLine default.sysPath.bytes) {first : Option Bytes} {s t : Sessions F}
    {e : SessionEvent F} (hs : s.Remembers T reread default first)
    (hstep : s.step T default e = some t) :
    t.Finds T reread default first ↔ s.SavesLine e := by
  cases e with
  | starts readable =>
    refine iff_of_true ?_ trivial
    simp only [Sessions.step] at hstep
    repeat' split at hstep
    all_goals first
      | contradiction
      | exact Option.some.inj hstep ▸ Sessions.finds_of_live rfl
  | changes o =>
    obtain ⟨-, -, rfl⟩ := Option.map_eq_some_iff.mp hstep
    exact iff_of_true (Sessions.finds_of_live rfl) trivial
  | exits writable =>
    obtain ⟨o, ho, rfl⟩ := Option.map_eq_some_iff.mp hstep
    cases writable with
    | false => exact iff_of_true ((Sessions.finds_iff rfl).mpr hs) trivial
    | true =>
      have hround := (Sessions.finds_iff rfl).trans ((@Sessions.remembers_saved F T reread default
        first o).trans (load_save_iff hT hdefault o))
      refine hround.trans ⟨fun hline o' ho' => ?_, fun h => h o ho⟩
      exact Option.some.inj (ho.symm.trans ho') ▸ hline
  | dies =>
    obtain ⟨-, -, rfl⟩ := Option.map_eq_some_iff.mp hstep
    exact iff_of_true ((Sessions.finds_iff rfl).mpr hs) trivial

end

/-- The first start has no file; the user changes the port, and the second start dies. -/
def secondStart : List (SessionEvent Bool) :=
  [.starts true, .changes { firstOptions with proxyPort := 8080 }, .exits true, .starts true, .dies]

end NetDebugger
