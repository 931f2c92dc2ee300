import NetDebugger.Driver.Switched

/-! `KndClient` on the control plane.  The I/O manager puts the input of a request into a system buffer
with room for the longer of input and output, and copies as much of it back as the driver says; what
else is in the buffer is whatever the pool held. -/

namespace NetDebugger.Driver

open Lib

variable {Process : Type} [DecidableEq Process]

/-! ### The I/O manager -/

/-- A buffer whose length fits a DWORD. -/
structure ShortBuffer where
  bytes : List UInt8
  short : bytes.length < 2 ^ 32

def ShortBuffer.len (b : ShortBuffer) : UInt32 := UInt32.ofNat b.bytes.length

@[simp] theorem ShortBuffer.len_toNat (b : ShortBuffer) : b.len.toNat = b.bytes.length :=
  UInt32.toNat_ofNat_of_lt' b.short

def ShortBuffer.empty : ShortBuffer := ⟨[], by decide⟩

/-- The system buffer of a request: the input, and pool bytes behind it. -/
def Irp.buffer (pool : Nat → UInt8) (input : ShortBuffer) (outLen : UInt32) : Irp where
  inputBufferLength := input.len
  outputBufferLength := outLen
  systemBuffer :=
    input.bytes ++ readBytes pool input.bytes.length (outLen.toNat - input.bytes.length)
  buffered := by
    rw [List.length_append, readBytes_length, input.len_toNat]
    omega

/-- The machine below the application: the memory manager with its next answer, and the pool. -/
structure Os where
  mm : Machine
  map : MmAnswer
  pool : Nat → UInt8

/-- What `DeviceIoControl` gives back: whether it succeeded, the output buffer, and how much of it was
written. -/
structure Returned where
  ok : Bool
  out : List UInt8
  returned : Nat

/-- `KndClient::ioctl` on an open handle. -/
def ioctl (os : Os) (current : Process) (k : Kernel Process) (i : Ioctl)
    (input out : ShortBuffer) : Option (Kernel Process × Returned) :=
  let irp := Irp.buffer os.pool input out.len
  (k.control os.mm os.map current irp (Ioctl.ofCode i.code)).map fun (k, r) =>
    (k, ⟨ntSuccess r.status, r.output ++ out.bytes.drop r.output.length, r.output.length⟩)

/-! ### The wrappers -/

/-- `KND_PHYS_RW` in memory. -/
def KndPhysRw.bytes (req : KndPhysRw) : List UInt8 :=
  leBytes 8 req.offset.toNat ++ leBytes 4 req.length.toNat ++ leBytes 4 0

@[simp] theorem KndPhysRw.bytes_length (req : KndPhysRw) : req.bytes.length = 16 := by
  simp [KndPhysRw.bytes]

/-- The lengths that `physRead` and `physWrite` pass on. -/
def WrongLength (len : UInt32) : Prop := len = 0 ∨ len > kndMaxPhysRw

instance (len : UInt32) : Decidable (WrongLength len) :=
  inferInstanceAs (Decidable (len = 0 ∨ len > kndMaxPhysRw))

/-- `KndClient::physRead`. -/
def physRead (os : Os) (current : Process) (k : Kernel Process) (offset : UInt64)
    (buf : ShortBuffer) : Option (Kernel Process × Bool × List UInt8) :=
  if WrongLength buf.len then some (k, false, buf.bytes)
  else
    let req : ShortBuffer :=
      ⟨(⟨offset, buf.len⟩ : KndPhysRw).bytes, by rw [KndPhysRw.bytes_length]; decide⟩
    (ioctl os current k .physRead req buf).map fun (k, r) =>
      (k, r.ok && r.returned = buf.len.toNat, r.out)

/-- The input of a write: the request, and the bytes behind it. -/
def writeInput (offset : UInt64) (buf : ShortBuffer) (h : ¬WrongLength buf.len) : ShortBuffer where
  bytes := (⟨offset, buf.len⟩ : KndPhysRw).bytes ++ buf.bytes
  short := by
    have hmax := (not_or.mp (mt (length_check buf.len).mpr h)).2
    rw [buf.len_toNat, show kndMaxPhysRw.toNat = 4096 from rfl] at hmax
    rw [List.length_append, KndPhysRw.bytes_length]
    omega

/-- `KndClient::physWrite`. -/
def physWrite (os : Os) (current : Process) (k : Kernel Process) (offset : UInt64)
    (buf : ShortBuffer) : Option (Kernel Process × Bool) :=
  if h : WrongLength buf.len then some (k, false)
  else
    (ioctl os current k .physWrite (writeInput offset buf h) .empty).map fun (k, r) => (k, r.ok)

/-! ### What a request returns -/

/-- A request of the client as the panel sees it. -/
def asked (os : Os) (current : Process) (i : Ioctl) (input : ShortBuffer) (outLen : Nat) :
    Ask Process := ⟨current, i.code, input.bytes, outLen, os.map⟩

section

variable {os : Os} {k : Kernel Process}

theorem ioctl_serves (hk : k.Ready os.mm) (current : Process) (i : Ioctl)
    (input out : ShortBuffer) : ∃ k' r, ioctl os current k i input out = some (k', r) ∧
      k'.cache = k.cache ∧
      match (k.panel os.mm).serve (asked os current i input out.bytes.length) with
      | (y, .ok bs) =>
        k'.panel os.mm = y ∧ r = ⟨true, bs ++ out.bytes.drop bs.length, bs.length⟩
      | (y, .error _) => k'.panel os.mm = y ∧ r = ⟨false, out.bytes, 0⟩ := by
  let c : ControlCall Process :=
    ⟨current, i.code, Irp.buffer os.pool input out.len, os.map⟩
  have hask : c.ask = asked os current i input out.bytes.length := by
    have hinput : (Irp.buffer os.pool input out.len).input = input.bytes := by
      show (input.bytes ++ _).take input.len.toNat = _
      rw [input.len_toNat, List.take_left]
    show (⟨current, i.code, (Irp.buffer os.pool input out.len).input, out.len.toNat, os.map⟩ :
      Ask Process) = _
    rw [hinput, out.len_toNat]
    rfl
  obtain ⟨k', r, hcontrol, hr⟩ := control_serves hk c
  have hpanel := hr.panel
  rw [hask] at hpanel
  refine ⟨k', _, by rw [ioctl]; exact congrArg _ hcontrol, hr.cache, ?_⟩
  rw [← hpanel]
  cases hstatus : ntSuccess r.status with
  | true =>
    rw [Reply.answer, if_pos hstatus]
    exact ⟨rfl, rfl⟩
  | false =>
    have houtput : r.output = [] := by rw [Reply.output, (hr.failed hstatus).2, List.take_zero]
    rw [Reply.answer, hstatus, houtput]
    exact ⟨rfl, rfl⟩

theorem KndPhysRw.read_bytes (req : KndPhysRw) (rest : List UInt8) :
    KndPhysRw.read (pointer (req.bytes ++ rest)) = req := by
  have hlies := lies_pointer req.bytes rest
  simp only [KndPhysRw.bytes, lies_append, leBytes_length, List.length_append] at hlies
  obtain ⟨⟨hoffset, hlength⟩, -⟩ := hlies
  simp only [KndPhysRw.read, KndPhysRw.bytes, hoffset.uint64, hlength.uint32]

theorem serve_read (y : Panel Process) (current : Process) (req : KndPhysRw)
    (h : req.bytes.length < 2 ^ 32) (n : Nat) :
    y.serve (asked os current .physRead ⟨req.bytes, h⟩ n) = y.read req n := by
  have hread := KndPhysRw.read_bytes req []
  rw [List.append_nil] at hread
  have hsize : ¬req.bytes.length < sizeofKndPhysRw := by
    rw [KndPhysRw.bytes_length]
    decide
  rw [serve_physRead (Ioctl.ofCode_code .physRead)]
  show (if req.bytes.length < sizeofKndPhysRw then _ else
    y.read (KndPhysRw.read (pointer req.bytes)) n) = _
  rw [if_neg hsize, hread]

theorem serve_write (y : Panel Process) (current : Process) (offset : UInt64) {buf : ShortBuffer}
    (h : ¬WrongLength buf.len) (n : Nat) :
    y.serve (asked os current .physWrite (writeInput offset buf h) n) =
      y.write ⟨offset, buf.len⟩ buf.bytes := by
  have hread := KndPhysRw.read_bytes ⟨offset, buf.len⟩ buf.bytes
  have hsize : ¬(writeInput offset buf h).bytes.length < sizeofKndPhysRw := by
    rw [writeInput, List.length_append, KndPhysRw.bytes_length]
    exact Nat.not_lt.mpr (Nat.le_add_right ..)
  have hdata : (writeInput offset buf h).bytes.drop sizeofKndPhysRw = buf.bytes :=
    List.drop_left' (KndPhysRw.bytes_length _)
  rw [serve_physWrite (Ioctl.ofCode_code .physWrite)]
  show (if (writeInput offset buf h).bytes.length < sizeofKndPhysRw then _ else
    y.write (KndPhysRw.read (pointer (writeInput offset buf h).bytes))
      ((writeInput offset buf h).bytes.drop sizeofKndPhysRw)) = _
  rw [if_neg hsize, hdata]
  exact congrArg (fun req => y.write req buf.bytes) hread

/-! ### Reads and writes -/

/-- The `n` bytes at an offset can be asked for. -/
def Panel.Admits (y : Panel Process) (offset : UInt64) (n : Nat) : Prop :=
  0 < n ∧ n ≤ kndMaxPhysRw.toNat ∧ offset.toNat + n ≤ y.region.length

theorem wrongLength_iff (buf : ShortBuffer) : WrongLength buf.len ↔
    ¬(0 < buf.bytes.length ∧ buf.bytes.length ≤ kndMaxPhysRw.toNat) := by
  rw [WrongLength, length_check, buf.len_toNat]
  omega

/-- A read is exact, and leaves the panel alone. -/
theorem physRead_exact (hk : k.Ready os.mm) (current : Process) (offset : UInt64)
    (buf : ShortBuffer) : ∃ k' ok out, physRead os current k offset buf = some (k', ok, out) ∧
      k'.panel os.mm = k.panel os.mm ∧
      (ok = true ↔ (k.panel os.mm).Admits offset buf.bytes.length) ∧
      out = if ok then part (k.panel os.mm).region offset.toNat buf.bytes.length
        else buf.bytes := by
  have hwrong := wrongLength_iff buf
  unfold physRead
  by_cases hlength : WrongLength buf.len
  · rw [if_pos hlength]
    refine ⟨k, false, buf.bytes, rfl, rfl, iff_of_false Bool.false_ne_true fun h => ?_, rfl⟩
    exact hwrong.mp hlength ⟨h.1, h.2.1⟩
  rw [if_neg hlength]
  dsimp only
  obtain ⟨k', r, hioctl, -, hr⟩ := ioctl_serves hk current .physRead
    ⟨(⟨offset, buf.len⟩ : KndPhysRw).bytes, by rw [KndPhysRw.bytes_length]; decide⟩ buf
  rw [hioctl]
  have hlength' : ¬(buf.len.toNat = 0 ∨ kndMaxPhysRw.toNat < buf.len.toNat) :=
    mt (length_check buf.len).mpr hlength
  rw [serve_read, Panel.read, if_neg hlength', buf.len_toNat,
    if_neg (Nat.lt_irrefl buf.bytes.length)] at hr
  by_cases hfits : (k.panel os.mm).region.length < offset.toNat + buf.bytes.length
  · rw [if_pos hfits] at hr
    obtain ⟨hpanel, rfl⟩ := hr
    refine ⟨k', false, _, rfl, hpanel, iff_of_false Bool.false_ne_true fun h => ?_, rfl⟩
    exact absurd h.2.2 (Nat.not_le_of_lt hfits)
  · rw [if_neg hfits] at hr
    obtain ⟨hpanel, rfl⟩ := hr
    have hpart : (part (k.panel os.mm).region offset.toNat buf.bytes.length).length =
        buf.bytes.length := part_length (Nat.le_of_not_lt hfits)
    obtain ⟨hpos, hmax⟩ := not_not.mp (mt hwrong.mpr hlength)
    refine ⟨k', true, part (k.panel os.mm).region offset.toNat buf.bytes.length, ?_, hpanel,
      iff_of_true rfl ⟨hpos, hmax, Nat.le_of_not_lt hfits⟩, rfl⟩
    rw [Option.map_some, hpart, buf.len_toNat, List.drop_length, List.append_nil]
    simp only [decide_true, Bool.and_true]

/-- A write is exact. -/
theorem physWrite_exact (hk : k.Ready os.mm) (current : Process) (offset : UInt64)
    (buf : ShortBuffer) : ∃ k' ok, physWrite os current k offset buf = some (k', ok) ∧
      k'.cache = k.cache ∧ (ok = true ↔ (k.panel os.mm).Admits offset buf.bytes.length) ∧
      k'.panel os.mm = if ok then
        { k.panel os.mm with region := patch (k.panel os.mm).region offset.toNat buf.bytes }
        else k.panel os.mm := by
  have hwrong := wrongLength_iff buf
  unfold physWrite
  by_cases hlength : WrongLength buf.len
  · rw [dif_pos hlength]
    refine ⟨k, false, rfl, rfl, iff_of_false Bool.false_ne_true fun h => ?_, rfl⟩
    exact hwrong.mp hlength ⟨h.1, h.2.1⟩
  rw [dif_neg hlength]
  obtain ⟨k', r, hioctl, hcache, hr⟩ := ioctl_serves hk current .physWrite
    (writeInput offset buf hlength) .empty
  rw [hioctl]
  have hlength' : ¬(buf.len.toNat = 0 ∨ kndMaxPhysRw.toNat < buf.len.toNat) :=
    mt (length_check buf.len).mpr hlength
  rw [serve_write, Panel.write, if_neg hlength', buf.len_toNat,
    if_neg (Nat.lt_irrefl buf.bytes.length)] at hr
  by_cases hfits : (k.panel os.mm).region.length < offset.toNat + buf.bytes.length
  · rw [if_pos hfits] at hr
    obtain ⟨hpanel, rfl⟩ := hr
    refine ⟨k', false, rfl, hcache, iff_of_false Bool.false_ne_true fun h => ?_, hpanel⟩
    exact absurd h.2.2 (Nat.not_le_of_lt hfits)
  · rw [if_neg hfits, List.take_length] at hr
    obtain ⟨hpanel, rfl⟩ := hr
    obtain ⟨hpos, hmax⟩ := not_not.mp (mt hwrong.mpr hlength)
    exact ⟨k', true, rfl, hcache, iff_of_true rfl ⟨hpos, hmax, Nat.le_of_not_lt hfits⟩, hpanel⟩

/-- What the client writes to the ring is what any client reads there, until a request writes over
it; a write that is turned down changes nothing. -/
theorem written_until_overwritten (hk : k.Ready os.mm) (current : Process) (offset : UInt64)
    (buf : ShortBuffer) : ∃ k₁ ok, physWrite os current k offset buf = some (k₁, ok) ∧
      (ok = true ↔ (k.panel os.mm).Admits offset buf.bytes.length) ∧
      (ok = false → k₁.panel os.mm = k.panel os.mm) ∧
      (ok = true → ∀ calls : List (ControlCall Process),
        (∀ c ∈ calls, c.ask.Spares offset.toNat buf.bytes.length) →
        ∃ k₂ rs, k₁.run os.mm calls = some (k₂, rs) ∧
          ∀ (os' : Os) (reader : Process) (out : ShortBuffer), os'.mm = os.mm →
            out.bytes.length = buf.bytes.length →
            ∃ k₃, physRead os' reader k₂ offset out = some (k₃, true, buf.bytes)) := by
  obtain ⟨k₁, ok, hwrite, hcache, hok, hpanel⟩ := physWrite_exact hk current offset buf
  refine ⟨k₁, ok, hwrite, hok, fun hfalse => ?_, fun htrue calls hspares => ?_⟩
  · rw [hfalse] at hpanel
    exact hpanel
  rw [htrue, if_pos rfl] at hpanel
  obtain ⟨hpos, hmax, hfits⟩ := hok.mp htrue
  have hk₁ : k₁.Ready os.mm := hk.congr hcache
  obtain ⟨k₂, rs, hrun, hcache₂, hpanel₂⟩ := control_refines hk₁ calls
  have hregion : sizeofKndRingHeader ≤ (k₁.panel os.mm).region.length := by
    rw [Kernel.panel, region_length]
    exact hk₁.header
  obtain ⟨hlength, hpart⟩ := run_spares hregion (List.forall_mem_map.mpr hspares)
  have hlength₁ : (k₁.panel os.mm).region.length = (k.panel os.mm).region.length := by
    rw [hpanel, patch_length hfits]
  have hpatch : part (k₁.panel os.mm).region offset.toNat buf.bytes.length = buf.bytes := by
    rw [hpanel]
    exact part_patch_same (Nat.le_trans (Nat.le_add_right ..) hfits)
  rw [← hpanel₂] at hlength hpart
  refine ⟨k₂, rs, hrun, fun os' reader out hmm hout => ?_⟩
  have hk₂ : k₂.Ready os'.mm := hmm ▸ hk₁.congr hcache₂
  obtain ⟨k₃, ok₃, bytes, hread, -, hok₃, hbytes⟩ := physRead_exact hk₂ reader offset out
  have htrue₃ : ok₃ = true := hok₃.mpr ⟨hout ▸ hpos, hout ▸ hmax, by
    rw [hmm, hout]
    exact Nat.le_trans hfits (Nat.le_of_eq (hlength.trans hlength₁).symm)⟩
  rw [htrue₃, if_pos rfl, hmm, hout] at hbytes
  exact ⟨k₃, by rw [hread, htrue₃, hbytes.trans (hpart.trans hpatch)]⟩

end

def someOs : Os := ⟨someMachine, .address 0x10000, UInt8.ofNat⟩

def threeBytes : ShortBuffer := ⟨[1, 2, 3], by decide⟩

theorem written_until_overwritten_threeBytes : ∃ k₁ ok,
    physWrite someOs 1 someKernel 0x1800 threeBytes = some (k₁, ok) ∧
      (ok = true ↔ (someKernel.panel someOs.mm).Admits 0x1800 threeBytes.bytes.length) ∧
      (ok = false → k₁.panel someOs.mm = someKernel.panel someOs.mm) ∧
      (ok = true → ∀ calls : List (ControlCall Nat),
        (∀ c ∈ calls, c.ask.Spares (0x1800 : UInt64).toNat threeBytes.bytes.length) →
        ∃ k₂ rs, k₁.run someOs.mm calls = some (k₂, rs) ∧
          ∀ (os' : Os) (reader : Nat) (out : ShortBuffer), os'.mm = someOs.mm →
            out.bytes.length = threeBytes.bytes.length →
            ∃ k₃, physRead os' reader k₂ 0x1800 out = some (k₃, true, threeBytes.bytes)) :=
  @written_until_overwritten _ _ someOs _ someKernel_ready 1 0x1800 threeBytes

end NetDebugger.Driver
