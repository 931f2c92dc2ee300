import NetDebugger.Lib.LittleEndian

/-! Bytes behind checked indices, and streams of frames.  A frame is a header of fixed length, which
states the length of the body behind it.  `Splits` reads a stream into its whole frames; where a
stream of frames is cut, exactly the frames that end in front of the cut are left. -/

namespace NetDebugger.Lib

variable {α : Type*}

/-- The `n` entries at `off`, if they are all there. -/
def slice (s : List α) (off n : Nat) : Option (List α) :=
  if off + n ≤ s.length then some ((s.drop off).take n) else none

theorem slice_mid (pre mid post : List α) :
    slice (pre ++ (mid ++ post)) pre.length mid.length = some mid := by
  have hle : pre.length + mid.length ≤ (pre ++ (mid ++ post)).length := by
    simp only [List.length_append]
    omega
  rw [slice, if_pos hle, List.drop_left, List.take_left]

theorem slice_of_le {s : List α} {off n : Nat} (h : off + n ≤ s.length) :
    slice s off n = some ((s.drop off).take n) := if_pos h

theorem slice_whole (s : List α) : slice s 0 s.length = some s := by
  rw [slice_of_le (Nat.le_of_eq (Nat.zero_add _)), List.drop_zero, List.take_length]

/-- More entries behind the slice do not change it. -/
theorem slice_append {s : List α} {off n : Nat} (h : off + n ≤ s.length) (t : List α) :
    slice (s ++ t) off n = slice s off n := by
  have hle : off + n ≤ (s ++ t).length := by
    rw [List.length_append]
    omega
  rw [slice_of_le h, slice_of_le hle, List.drop_append_of_le_length (by omega),
    List.take_append_of_le_length (by rw [List.length_drop]; omega)]

/-- An entry behind a known beginning. -/
theorem getElem?_mid (pre s : List α) (j : Nat) : (pre ++ s)[pre.length + j]? = s[j]? := by
  rw [List.getElem?_append_right (Nat.le_add_right ..), Nat.add_sub_cancel_left]

theorem getElem?_mid_zero (pre s : List α) : (pre ++ s)[pre.length]? = s[0]? :=
  getElem?_mid pre s 0

/-- Appending to a capped prefix. -/
theorem take_append_take {cap : Nat} {xs ys buf : List α} (h : buf = xs.take cap) :
    (if buf.length < cap then buf ++ ys.take (min ys.length (cap - buf.length)) else buf) =
      (xs ++ ys).take cap := by
  subst h
  rw [List.take_append, List.length_take]
  by_cases hroom : xs.length < cap
  · rw [if_pos (by omega), Nat.min_eq_right (Nat.le_of_lt hroom)]
    by_cases hfit : ys.length ≤ cap - xs.length
    · rw [Nat.min_eq_left hfit, List.take_of_length_le (Nat.le_refl _), List.take_of_length_le hfit]
    · rw [Nat.min_eq_right (by omega)]
  · rw [if_neg (by omega), Nat.sub_eq_zero_of_le (by omega), List.take_zero, List.append_nil]

/-! ### Big-endian numbers -/

def beBytes (w n : Nat) : List UInt8 := (leBytes w n).reverse

def beNat (bs : List UInt8) : Nat := leNat bs.reverse

@[simp] theorem beBytes_length (w n : Nat) : (beBytes w n).length = w := by
  simp [beBytes]

theorem beNat_beBytes {w n : Nat} (h : n < 256 ^ w) : beNat (beBytes w n) = n := by
  rw [beNat, beBytes, List.reverse_reverse, leNat_leBytes, Nat.mod_eq_of_lt h]

theorem beBytes_beNat {w : Nat} {bs : List UInt8} (h : bs.length = w) : beBytes w (beNat bs) = bs := by
  rw [beBytes, beNat, ← h, ← List.length_reverse, leBytes_leNat, List.reverse_reverse]

theorem beNat_lt {bs : List UInt8} {w : Nat} (h : bs.length = w) : beNat bs < 256 ^ w := by
  have hlt := leNat_lt bs.reverse
  rwa [List.length_reverse, h] at hlt

/-! ### Frames -/

/-- How long a header is, and the length of the body that it states. -/
structure Framing (α : Type*) where
  headerLen : Nat
  bodyLen : List α → Nat
  headerLen_pos : 0 < headerLen

structure Frame (α : Type*) where
  header : List α
  body : List α

def Frame.whole (f : Frame α) : List α := f.header ++ f.body

def join (fs : List (Frame α)) : List α := fs.flatMap Frame.whole

namespace Framing

variable (F : Framing α)

structure Fits (f : Frame α) : Prop where
  header : f.header.length = F.headerLen
  body : f.body.length = F.bodyLen f.header

/-- The stream has no whole frame in front. -/
def Partial (s : List α) : Prop :=
  F.headerLen ≤ s.length → s.length < F.headerLen + F.bodyLen (s.take F.headerLen)

/-- The whole frames in front of a stream. -/
inductive Splits : List α → List (Frame α) → Prop
  | done {s : List α} (h : F.Partial s) : Splits s []
  | frame {f : Frame α} {s : List α} {fs : List (Frame α)} (hf : F.Fits f) (h : Splits s fs) :
      Splits (f.whole ++ s) (f :: fs)

/-- The frames that end within the first `n` entries. -/
def captured : Nat → List (Frame α) → List (Frame α)
  | _, [] => []
  | n, f :: fs =>
    if f.whole.length ≤ n then f :: captured (n - f.whole.length) fs else []

variable {F}

theorem partial_nil : F.Partial [] := by
  intro h
  have hpos := F.headerLen_pos
  simp only [List.length_nil] at h
  omega

theorem Fits.whole_length {f : Frame α} (hf : F.Fits f) :
    f.whole.length = F.headerLen + F.bodyLen f.header := by
  rw [Frame.whole, List.length_append, hf.header, hf.body]

/-- A frame that is cut is no whole frame. -/
theorem Fits.partial_take {f : Frame α} (hf : F.Fits f) {n : Nat} (hn : n < f.whole.length)
    (rest : List α) : F.Partial ((f.whole ++ rest).take n) := by
  intro h
  rw [List.length_take] at h
  have hlen : ((f.whole ++ rest).take n).length = n := by
    rw [List.length_take, List.length_append]
    omega
  have hheader : ((f.whole ++ rest).take n).take F.headerLen = f.header := by
    rw [List.take_take, Nat.min_eq_left (by omega), Frame.whole, List.append_assoc, ← hf.header,
      List.take_left]
  rw [hheader, hlen, ← hf.whole_length]
  exact hn

theorem Splits.nil_inv {s : List α} (h : F.Splits s []) : F.Partial s := by
  cases h with
  | done h => exact h

theorem Splits.cons_inv {t : List α} {f : Frame α} {fs : List (Frame α)}
    (h : F.Splits t (f :: fs)) : ∃ s, t = f.whole ++ s ∧ F.Fits f ∧ F.Splits s fs := by
  cases h with
  | frame hf h => exact ⟨_, rfl, hf, h⟩

/-- A cut leaves the frames that end in front of it. -/
theorem splits_take {fs : List (Frame α)} (hfs : ∀ f ∈ fs, F.Fits f) (n : Nat) :
    F.Splits ((join fs).take n) (captured n fs) := by
  induction fs generalizing n with
  | nil =>
    rw [join, List.flatMap_nil, List.take_nil]
    exact .done partial_nil
  | cons f fs ih =>
    have hf := hfs f (List.mem_cons_self ..)
    rw [join, List.flatMap_cons, captured]
    by_cases hn : f.whole.length ≤ n
    · rw [if_pos hn, List.take_append, List.take_of_length_le hn]
      exact .frame hf (ih (fun g hg => hfs g (List.mem_cons_of_mem _ hg)) _)
    · rw [if_neg hn]
      exact .done (hf.partial_take (Nat.lt_of_not_le hn) _)

theorem captured_take (n : Nat) (fs : List (Frame α)) :
    captured n fs = fs.take (captured n fs).length := by
  induction fs generalizing n with
  | nil => rfl
  | cons f fs ih =>
    rw [captured]
    split
    · rw [List.length_cons, List.take_succ_cons, ← ih]
    · rfl

/-! ### The frames of a stream -/

variable (F) in
def framesLoop : Nat → List α → List (Frame α)
  | 0, _ => []
  | fuel + 1, s =>
    let len := F.headerLen + F.bodyLen (s.take F.headerLen)
    if len ≤ s.length then
      ⟨s.take F.headerLen, (s.drop F.headerLen).take (F.bodyLen (s.take F.headerLen))⟩ ::
        framesLoop fuel (s.drop len)
    else []

variable (F) in
/-- The whole frames in front of a stream. -/
def frames (s : List α) : List (Frame α) := F.framesLoop s.length s

theorem Fits.header_take {f : Frame α} (hf : F.Fits f) (t : List α) :
    (f.whole ++ t).take F.headerLen = f.header := by
  rw [Frame.whole, List.append_assoc, ← hf.header, List.take_left]

theorem framesLoop_of_splits {s : List α} {fs : List (Frame α)} (h : F.Splits s fs) {fuel : Nat}
    (hfuel : s.length ≤ fuel) : F.framesLoop fuel s = fs := by
  induction h generalizing fuel with
  | @done s hpartial =>
    cases fuel with
    | zero => rfl
    | succ fuel =>
      rw [framesLoop, if_neg]
      intro hlen
      have hlt := hpartial (by omega)
      omega
  | @frame f s fs hf _ ih =>
    have hpos := F.headerLen_pos
    have hwhole := hf.whole_length
    rw [List.length_append] at hfuel
    obtain ⟨fuel, rfl⟩ := Nat.exists_eq_succ_of_ne_zero (show fuel ≠ 0 by omega)
    have hbody : ((f.whole ++ s).drop F.headerLen).take (F.bodyLen f.header) = f.body := by
      rw [Frame.whole, List.append_assoc, ← hf.header, List.drop_left, ← hf.body, List.take_left]
    rw [framesLoop, hf.header_take, if_pos (by rw [List.length_append]; omega), hbody, ← hwhole, List.drop_left,
      ih (by omega)]

/-- `frames` is the split. -/
theorem frames_of_splits {s : List α} {fs : List (Frame α)} (h : F.Splits s fs) :
    F.frames s = fs :=
  framesLoop_of_splits h (Nat.le_refl _)

theorem splits_framesLoop {s : List α} {fuel : Nat} (hfuel : s.length ≤ fuel) :
    F.Splits s (F.framesLoop fuel s) := by
  have hpos := F.headerLen_pos
  induction fuel generalizing s with
  | zero =>
    apply Splits.done
    intro hlen
    omega
  | succ fuel ih =>
    rw [framesLoop]
    split
    · next hle =>
      have hs : s = (Frame.mk (s.take F.headerLen)
          ((s.drop F.headerLen).take (F.bodyLen (s.take F.headerLen)))).whole ++
            s.drop (F.headerLen + F.bodyLen (s.take F.headerLen)) := by
        rw [Frame.whole, List.append_assoc, ← List.drop_drop, List.take_append_drop,
          List.take_append_drop]
      conv => lhs; rw [hs]
      apply Splits.frame
      · constructor
        · rw [List.length_take]
          omega
        · show ((s.drop F.headerLen).take _).length = F.bodyLen (s.take F.headerLen)
          rw [List.length_take, List.length_drop]
          omega
      · apply ih
        rw [List.length_drop]
        omega
    · next hgt =>
      exact .done fun _ => Nat.lt_of_not_le hgt

theorem splits_frames (s : List α) : F.Splits s (F.frames s) := splits_framesLoop (Nat.le_refl _)

/-- A stream is its whole frames, and a rest without one. -/
theorem Splits.join_append {s : List α} {fs : List (Frame α)} (h : F.Splits s fs) :
    ∃ rest, s = join fs ++ rest ∧ F.Partial rest := by
  induction h with
  | @done s hpartial => exact ⟨s, rfl, hpartial⟩
  | @frame f s fs _ _ ih =>
    obtain ⟨rest, rfl, hpartial⟩ := ih
    refine ⟨rest, ?_, hpartial⟩
    rw [join, join, List.flatMap_cons, List.append_assoc]

theorem Splits.fits {s : List α} {fs : List (Frame α)} (h : F.Splits s fs) : ∀ f ∈ fs, F.Fits f := by
  induction h with
  | done => nofun
  | frame hf _ ih => exact List.forall_mem_cons.mpr ⟨hf, ih⟩

theorem Splits.prepend {fs gs : List (Frame α)} {s : List α} (hfs : ∀ f ∈ fs, F.Fits f)
    (h : F.Splits s gs) : F.Splits (join fs ++ s) (fs ++ gs) := by
  induction fs with
  | nil => exact h
  | cons f fs ih =>
    rw [join, List.flatMap_cons, List.append_assoc]
    exact .frame (hfs f (List.mem_cons_self ..)) (ih fun g hg => hfs g (List.mem_cons_of_mem _ hg))

variable (F) in
/-- The stream ends where a frame does. -/
def Whole (s : List α) : Prop := join (F.frames s) = s

theorem Whole.frames_append {s : List α} (hs : F.Whole s) (t : List α) :
    F.frames (s ++ t) = F.frames s ++ F.frames t := by
  conv => lhs; rw [← hs]
  exact frames_of_splits (.prepend (splits_frames s).fits (splits_frames t))

/-- Streams that end where frames do can be cut there. -/
theorem frames_flatMap {β : Type*} {payload : β → List α} {rs : List β}
    (hrs : ∀ r ∈ rs, F.Whole (payload r)) (t : List α) :
    F.frames (rs.flatMap payload ++ t) = rs.flatMap (fun r => F.frames (payload r)) ++ F.frames t := by
  induction rs with
  | nil => rfl
  | cons r rs ih =>
    rw [List.flatMap_cons, List.append_assoc, (hrs r (List.mem_cons_self ..)).frames_append,
      ih fun q hq => hrs q (List.mem_cons_of_mem _ hq), List.flatMap_cons, List.append_assoc]

end Framing

end NetDebugger.Lib
