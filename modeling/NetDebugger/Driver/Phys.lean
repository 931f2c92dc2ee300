import NetDebugger.Driver.Mapping
import NetDebugger.Lib.Frames
import NetDebugger.Lib.Paging

/-! The scoped physical read and write of `driver/ioctl.c`.  The caller gives an offset into the
ring, and the driver translates page after page.  The memory manager is a parameter; accesses to the
system buffer are checked, and the physical addresses that are touched are written down. -/

namespace NetDebugger.Driver

open Lib

def statusInvalidParameter : NtStatus := 0xC000000D
def statusUnsuccessful : NtStatus := 0xC0000001

def kndMaxPhysRw : UInt32 := 4096
def sizeofKndPhysRw : Nat := 16
def pageSize : UInt32 := 4096

/-- `KND_PHYS_RW`, without its reserved field. -/
structure KndPhysRw where
  offset : UInt64
  length : UInt32
deriving DecidableEq

def KndPhysRw.read (p : Nat → UInt8) : KndPhysRw where
  offset := UInt64.ofNat (readNat p 0 8)
  length := UInt32.ofNat (readNat p 8 4)

/-- The part of `KND_DEVICE_CONTEXT` that says where the ring is. A null base is no ring. -/
structure CacheContext where
  ringBase : UInt64
  ringTotalSize : UInt64

/-- The page table, `MmGetPhysicalAddress` and `MmCopyMemory`: its status, and the bytes that it
copied. -/
structure Machine where
  frame : Nat → Nat
  getPhysicalAddress : UInt64 → Nat
  copyMemory : Memory → Nat → UInt32 → NtStatus × List UInt8

def Machine.table (mm : Machine) : PageTable := ⟨pageSize.toNat, mm.frame⟩

/-! ### The copy -/

/-- Bytes copied into a buffer, if it has room for them. -/
def overwrite (buffer : List UInt8) (pos : Nat) (bs : List UInt8) : Option (List UInt8) :=
  if pos + bs.length ≤ buffer.length then
    some (buffer.take pos ++ bs ++ buffer.drop (pos + bs.length))
  else none

/-- `mem` is physical memory, `buffer` the system buffer and `ptr` an index into it. -/
structure CopyState where
  mem : Memory
  buffer : List UInt8
  touched : List Nat
  va : UInt64
  ptr : Nat
  remaining : UInt32

/-- What is left of the page, or of the request. -/
def chunkAt (va : UInt64) (remaining : UInt32) : UInt32 :=
  let pageOff := (va &&& (pageSize - 1).toUInt64).toUInt32
  let chunk := pageSize - pageOff
  if chunk > remaining then remaining else chunk

def CopyState.advance (s : CopyState) (chunk : UInt32) : CopyState :=
  { s with
    va := s.va + chunk.toUInt64
    ptr := s.ptr + chunk.toNat
    remaining := s.remaining - chunk }

/-- The loop of `KndScopedPhysCopy`. `none` is an access outside the buffer, or no end. -/
def copyLoop (mm : Machine) (isWrite : Bool) : Nat → CopyState → Option (NtStatus × CopyState)
  | 0, _ => none
  | fuel + 1, s =>
    if s.remaining > 0 then
      let chunk := chunkAt s.va s.remaining
      let pa := mm.getPhysicalAddress s.va
      if pa = 0 then some (statusUnsuccessful, s)
      else if isWrite then do
        let bytes ← slice s.buffer s.ptr chunk.toNat
        let stores := blockStores s.va.toNat bytes
        let s := { s with
          mem := mm.table.storeAll s.mem stores
          touched := s.touched ++ stores.map fun (st : Store) => mm.table.translate st.1 }
        copyLoop mm isWrite fuel (s.advance chunk)
      else do
        let (status, copied) := mm.copyMemory s.mem pa chunk
        let buffer ← overwrite s.buffer s.ptr copied
        let s := { s with
          buffer := buffer
          touched := s.touched ++ (List.range chunk.toNat).map (pa + ·) }
        if !ntSuccess status then some (status, s)
        else if copied.length ≠ chunk.toNat then some (statusUnsuccessful, s)
        else copyLoop mm isWrite fuel (s.advance chunk)
    else some (statusSuccess, s)

def kndScopedPhysCopy (mm : Machine) (ctx : CacheContext) (mem : Memory) (offset : UInt64)
    (length : UInt32) (buffer : List UInt8) (ptr : Nat) (isWrite : Bool) :
    Option (NtStatus × CopyState) :=
  let s : CopyState := ⟨mem, buffer, [], ctx.ringBase + offset, ptr, length⟩
  if ctx.ringBase = 0 then some (statusDeviceNotReady, s)
  else if length = 0 ∨ length > kndMaxPhysRw then some (statusInvalidParameter, s)
  else if offset ≥ ctx.ringTotalSize ∨ length.toUInt64 > ctx.ringTotalSize - offset then
    some (statusInvalidParameter, s)
  else copyLoop mm isWrite (length.toNat + 1) s

/-! ### The requests -/

/-- A buffered request: one system buffer holds the input, and takes the output. -/
structure Irp where
  inputBufferLength : UInt32
  outputBufferLength : UInt32
  systemBuffer : List UInt8
  buffered : systemBuffer.length = max inputBufferLength.toNat outputBufferLength.toNat

/-- A completed request. The first `information` bytes of the buffer go back to the caller. -/
structure Completed where
  status : NtStatus
  information : Nat
  mem : Memory
  systemBuffer : List UInt8
  touched : List Nat

def Completed.output (c : Completed) : List UInt8 := c.systemBuffer.take c.information

/-- A request that is turned down by the dispatcher. -/
def refused (mem : Memory) (irp : Irp) (status : NtStatus) : Completed :=
  ⟨status, 0, mem, irp.systemBuffer, []⟩

def complete (information : Nat) (r : NtStatus × CopyState) : Completed :=
  ⟨r.1, information, r.2.mem, r.2.buffer, r.2.touched⟩

/-- `IOCTL_KND_PHYS_READ`. The request is copied before the output overwrites it. -/
def ioctlKndPhysRead (mm : Machine) (ctx : CacheContext) (mem : Memory) (irp : Irp) :
    Option Completed :=
  if irp.inputBufferLength.toNat < sizeofKndPhysRw then
    some (refused mem irp statusBufferTooSmall)
  else
    let req := KndPhysRw.read (pointer irp.systemBuffer)
    if req.length = 0 ∨ req.length > kndMaxPhysRw then
      some (refused mem irp statusInvalidParameter)
    else if irp.outputBufferLength < req.length then some (refused mem irp statusBufferTooSmall)
    else do
      let r ← kndScopedPhysCopy mm ctx mem req.offset req.length irp.systemBuffer 0 false
      some (complete (if ntSuccess r.1 then req.length.toNat else 0) r)

/-- `IOCTL_KND_PHYS_WRITE`. The bytes follow the request. -/
def ioctlKndPhysWrite (mm : Machine) (ctx : CacheContext) (mem : Memory) (irp : Irp) :
    Option Completed :=
  if irp.inputBufferLength.toNat < sizeofKndPhysRw then
    some (refused mem irp statusBufferTooSmall)
  else
    let req := KndPhysRw.read (pointer irp.systemBuffer)
    if req.length = 0 ∨ req.length > kndMaxPhysRw then
      some (refused mem irp statusInvalidParameter)
    else if irp.inputBufferLength.toNat < sizeofKndPhysRw + req.length.toNat then
      some (refused mem irp statusBufferTooSmall)
    else do
      let data := sizeofKndPhysRw
      let r ← kndScopedPhysCopy mm ctx mem req.offset req.length irp.systemBuffer data true
      some (complete 0 r)

/-! ### What the requests are for -/

variable {mm : Machine} {ctx : CacheContext}

/-- The addresses of the ring. -/
def CacheContext.Contains (ctx : CacheContext) (va : Nat) : Prop :=
  ctx.ringBase.toNat ≤ va ∧ va < ctx.ringBase.toNat + ctx.ringTotalSize.toNat

/-- The ring has been allocated. -/
structure CacheContext.Created (ctx : CacheContext) : Prop where
  ringBase : ctx.ringBase ≠ 0
  fits : ctx.ringBase.toNat + ctx.ringTotalSize.toNat ≤ 2 ^ 64

/-- The memory manager knows the pages of the ring, and copies what is there. -/
structure Machine.Serves (mm : Machine) (ctx : CacheContext) : Prop where
  translates : ∀ va : UInt64, ctx.Contains va.toNat →
    mm.getPhysicalAddress va = mm.table.translate va.toNat ∧ mm.getPhysicalAddress va ≠ 0
  copies : ∀ mem (va : UInt64) (n : UInt32), (∀ i < n.toNat, ctx.Contains (va.toNat + i)) →
    va.toNat % pageSize.toNat + n.toNat ≤ pageSize.toNat →
    mm.copyMemory mem (mm.table.translate va.toNat) n =
      (statusSuccess, readBytes mem (mm.table.translate va.toNat) n.toNat)
  own : mm.table.Own ctx.Contains

/-- The bytes of the ring. -/
def CacheContext.region (ctx : CacheContext) (mm : Machine) (mem : Memory) : List UInt8 :=
  readBytes (mm.table.view mem) ctx.ringBase.toNat ctx.ringTotalSize.toNat

/-- The request asks for bytes of the ring. -/
def CacheContext.Admits (ctx : CacheContext) (req : KndPhysRw) : Prop :=
  0 < req.length.toNat ∧ req.length.toNat ≤ kndMaxPhysRw.toNat ∧
    req.offset.toNat + req.length.toNat ≤ ctx.ringTotalSize.toNat

/-- No physical address is touched but those of the ring. -/
def CacheContext.Inside (ctx : CacheContext) (mm : Machine) (touched : List Nat) : Prop :=
  ∀ pa ∈ touched, ∃ va, ctx.Contains va ∧ pa = mm.table.translate va

/-! ### One page -/

theorem chunkAt_bounds {va : UInt64} {remaining : UInt32} (h : remaining > 0) :
    0 < (chunkAt va remaining).toNat ∧ (chunkAt va remaining).toNat ≤ remaining.toNat ∧
      va.toNat % pageSize.toNat + (chunkAt va remaining).toNat ≤ pageSize.toNat := by
  have hpage : pageSize.toNat = 4096 := rfl
  have hoff : (va &&& (pageSize - 1).toUInt64).toUInt32.toNat = va.toNat % 4096 := by
    have hmask : (va &&& (pageSize - 1).toUInt64).toNat = va.toNat % 4096 := by
      rw [UInt64.toNat_and]
      exact Nat.and_two_pow_sub_one_eq_mod va.toNat 12
    rw [UInt64.toNat_toUInt32, hmask]
    omega
  have hlt := Nat.mod_lt va.toNat (show 0 < 4096 by decide)
  have hpos : 0 < remaining.toNat := UInt32.lt_iff_toNat_lt.mp h
  have hsub : (pageSize - (va &&& (pageSize - 1).toUInt64).toUInt32).toNat =
      4096 - va.toNat % 4096 := by
    rw [UInt32.toNat_sub_of_le _ _ (UInt32.le_iff_toNat_le.mpr (by omega)), hoff, hpage]
  unfold chunkAt
  simp only [gt_iff_lt, UInt32.lt_iff_toNat_lt, hsub, hpage]
  split <;> omega

/-- A request that lies in the ring ends with the page, or goes on behind it. -/
theorem advance_va {va : UInt64} {remaining : UInt32} (hctx : ctx.Created)
    (hin : ∀ i < remaining.toNat, ctx.Contains (va.toNat + i)) (hmore : remaining > 0) :
    remaining.toNat =
        (chunkAt va remaining).toNat + (remaining - chunkAt va remaining).toNat ∧
      ((remaining - chunkAt va remaining).toNat = 0 ∨
        (va + (chunkAt va remaining).toUInt64).toNat =
          va.toNat + (chunkAt va remaining).toNat) := by
  obtain ⟨hpos, hle, -⟩ := @chunkAt_bounds va remaining hmore
  rw [UInt32.toNat_sub_of_le _ _ (UInt32.le_iff_toNat_le.mpr hle)]
  refine ⟨by omega, ?_⟩
  rcases Nat.eq_or_lt_of_le hle with hlast | hlt
  · exact .inl (by omega)
  · right
    have hnext := (hin _ hlt).2
    have hfits := hctx.fits
    rw [UInt64.toNat_add, UInt32.toNat_toUInt64, Nat.mod_eq_of_lt (by omega)]

theorem overwrite_mid {x old y bs : List UInt8} (h : bs.length = old.length) :
    overwrite (x ++ (old ++ y)) x.length bs = some (x ++ (bs ++ y)) := by
  rw [overwrite, if_pos (by simp only [List.length_append]; omega), List.take_left,
    ← List.append_assoc x old y, List.drop_left' (by rw [List.length_append, h]), List.append_assoc]

@[simp] theorem statusSuccess_ntSuccess : ntSuccess statusSuccess = true := rfl

theorem CacheContext.Inside.append {xs ys : List Nat} (hx : ctx.Inside mm xs)
    (hy : ctx.Inside mm ys) : ctx.Inside mm (xs ++ ys) := by
  intro pa hpa
  rcases List.mem_append.mp hpa with h | h
  · exact hx pa h
  · exact hy pa h

theorem inside_range {va n : Nat} (hin : ∀ i < n, ctx.Contains (va + i))
    (hpage : va % pageSize.toNat + n ≤ pageSize.toNat) :
    ctx.Inside mm ((List.range n).map (mm.table.translate va + ·)) := by
  intro pa hpa
  obtain ⟨i, hi, rfl⟩ := List.mem_map.mp hpa
  have hlt := List.mem_range.mp hi
  have hoff : va % pageSize.toNat + i < pageSize.toNat := by omega
  exact ⟨va + i, hin i hlt, (PageTable.translate_add (t := mm.table) hoff).symm⟩

theorem inside_stores {va : Nat} {bs : List UInt8}
    (hin : ∀ i < bs.length, ctx.Contains (va + i)) :
    ctx.Inside mm ((blockStores va bs).map fun (st : Store) => mm.table.translate st.1) := by
  intro pa hpa
  obtain ⟨st, hst, rfl⟩ := List.mem_map.mp hpa
  obtain ⟨hle, hlt⟩ := mem_blockStores hst
  refine ⟨st.1, ?_, rfl⟩
  rw [← Nat.add_sub_cancel' hle]
  exact hin _ (by omega)

/-! ### The loop -/

/-- Where the loop stands in a request: `bs` is the part of the buffer that is still to come. -/
structure CopyState.Pending (s : CopyState) (ctx : CacheContext) (mm : Machine)
    (x bs y : List UInt8) : Prop where
  buffer : s.buffer = x ++ (bs ++ y)
  ptr : s.ptr = x.length
  length : bs.length = s.remaining.toNat
  contained : ∀ i < s.remaining.toNat, ctx.Contains (s.va.toNat + i)
  touched : ctx.Inside mm s.touched

section

variable {s : CopyState} {x first rest y : List UInt8}

theorem copyLoop_done (mm : Machine) (isWrite : Bool) (fuel : Nat) (h : ¬s.remaining > 0) :
    copyLoop mm isWrite (fuel + 1) s = some (statusSuccess, s) := if_neg h

/-- The part of the buffer for the next page. -/
theorem CopyState.Pending.split {bs : List UInt8} (hs : s.Pending ctx mm x bs y)
    (hmore : s.remaining > 0) : ∃ first rest, bs = first ++ rest ∧
      first.length = (chunkAt s.va s.remaining).toNat := by
  obtain ⟨-, hle, -⟩ := @chunkAt_bounds s.va s.remaining hmore
  have hlength := hs.length
  exact ⟨_, _, (List.take_append_drop _ bs).symm, List.length_take_of_le (by omega)⟩

/-- Behind the page the request goes on, with whatever bytes the page has left in the buffer. -/
theorem CopyState.Pending.advance (hctx : ctx.Created) (hs : s.Pending ctx mm x (first ++ rest) y)
    (hmore : s.remaining > 0) (hfirst : first.length = (chunkAt s.va s.remaining).toNat)
    (mem : Memory) {bytes : List UInt8} (hbytes : bytes.length = first.length) {touched : List Nat}
    (htouched : ctx.Inside mm touched) :
    (CopyState.advance ⟨mem, x ++ (bytes ++ (rest ++ y)), s.touched ++ touched, s.va, s.ptr,
      s.remaining⟩ (chunkAt s.va s.remaining)).Pending ctx mm (x ++ bytes) rest y := by
  obtain ⟨hsplit, hva⟩ := advance_va hctx hs.contained hmore
  have hlength := hs.length
  rw [List.length_append] at hlength
  constructor
  case buffer => exact (List.append_assoc ..).symm
  case ptr =>
    show s.ptr + (chunkAt s.va s.remaining).toNat = _
    rw [hs.ptr, List.length_append, hbytes, hfirst]
  case length =>
    show rest.length = (s.remaining - chunkAt s.va s.remaining).toNat
    omega
  case contained =>
    show ∀ i < (s.remaining - chunkAt s.va s.remaining).toNat,
      ctx.Contains ((s.va + (chunkAt s.va s.remaining).toUInt64).toNat + i)
    intro i hi
    rw [hva.resolve_left (by omega), Nat.add_assoc]
    exact hs.contained _ (by omega)
  case touched => exact hs.touched.append htouched

/-- The loop has done a page: `t` is `n` bytes further. -/
structure CopyState.Further (s t : CopyState) (n : Nat) : Prop where
  remaining : s.remaining.toNat = n + t.remaining.toNat
  va : t.remaining.toNat = 0 ∨ t.va.toNat = s.va.toNat + n

theorem copyLoop_read_page (hctx : ctx.Created) (hmm : mm.Serves ctx) (fuel : Nat)
    (hs : s.Pending ctx mm x (first ++ rest) y) (hmore : s.remaining > 0)
    (hfirst : first.length = (chunkAt s.va s.remaining).toNat) :
    ∃ t : CopyState, copyLoop mm false (fuel + 1) s = copyLoop mm false fuel t ∧
      s.Further t first.length ∧ t.mem = s.mem ∧
      t.Pending ctx mm (x ++ readBytes (mm.table.view s.mem) s.va.toNat first.length) rest y := by
  obtain ⟨hpos, hle, hpage⟩ := @chunkAt_bounds s.va s.remaining hmore
  obtain ⟨hsplit, hva⟩ := advance_va hctx hs.contained hmore
  obtain ⟨hpa, hne⟩ := hmm.translates s.va (hs.contained 0 (by omega))
  have hcopies := hmm.copies s.mem s.va (chunkAt s.va s.remaining)
    (fun i hi => hs.contained i (by omega)) hpage
  rw [PageTable.readBytes_translate (t := mm.table) s.mem hpage] at hcopies
  have hroom := @overwrite_mid x first (rest ++ y)
    (readBytes (mm.table.view s.mem) s.va.toNat first.length) (readBytes_length ..)
  have hbuffer := hs.buffer
  rw [List.append_assoc] at hbuffer
  have hnext := hs.advance hctx hmore hfirst s.mem
    (readBytes_length (mm.table.view s.mem) s.va.toNat first.length)
    (inside_range (fun i hi => hs.contained i (by omega)) hpage)
  refine ⟨_, ?_, ?_, ?_, hnext⟩
  · conv_lhs => unfold copyLoop
    rw [hpa] at hne ⊢
    rw [hfirst, ← hs.ptr] at hroom
    simp only [hmore, if_true, hne, if_false, Bool.false_eq_true, hcopies, hbuffer, hroom, hfirst,
      statusSuccess_ntSuccess, Bool.not_true, readBytes_length, ne_eq, not_true_eq_false,
      Option.bind_eq_bind, Option.bind_some]
  · rw [hfirst]
    exact ⟨hsplit, hva⟩
  · rfl

theorem copyLoop_write_page (hctx : ctx.Created) (hmm : mm.Serves ctx) (fuel : Nat)
    (hs : s.Pending ctx mm x (first ++ rest) y) (hmore : s.remaining > 0)
    (hfirst : first.length = (chunkAt s.va s.remaining).toNat) :
    ∃ t : CopyState, copyLoop mm true (fuel + 1) s = copyLoop mm true fuel t ∧
      s.Further t first.length ∧
      t.mem = mm.table.storeAll s.mem (blockStores s.va.toNat first) ∧
      t.Pending ctx mm (x ++ first) rest y := by
  obtain ⟨hpos, hle, hpage⟩ := @chunkAt_bounds s.va s.remaining hmore
  obtain ⟨hsplit, hva⟩ := advance_va hctx hs.contained hmore
  obtain ⟨-, hne⟩ := hmm.translates s.va (hs.contained 0 (by omega))
  have hbuffer := hs.buffer
  rw [List.append_assoc] at hbuffer
  have hbytes : slice s.buffer s.ptr (chunkAt s.va s.remaining).toNat = some first := by
    rw [hbuffer, hs.ptr, ← hfirst, slice_mid]
  rw [hbuffer] at hbytes
  have hin : ∀ i < first.length, ctx.Contains (s.va.toNat + i) :=
    fun i hi => hs.contained i (by omega)
  have hnext := hs.advance hctx hmore hfirst
    (mm.table.storeAll s.mem (blockStores s.va.toNat first)) rfl (inside_stores hin)
  refine ⟨_, ?_, ?_, ?_, hnext⟩
  · conv_lhs => unfold copyLoop
    simp only [hmore, if_true, hne, if_false, hbytes, Option.bind_eq_bind, Option.bind_some,
      hbuffer]
  · rw [hfirst]
    exact ⟨hsplit, hva⟩
  · rfl

/-! ### The whole copy -/

theorem CopyState.Pending.done {bs : List UInt8} (hs : s.Pending ctx mm x bs y)
    (h : ¬s.remaining > 0) : s.remaining.toNat = 0 ∧ bs = [] := by
  have hzero : s.remaining.toNat = 0 := by
    rw [gt_iff_lt, UInt32.lt_iff_toNat_lt] at h
    exact Nat.eq_zero_of_not_pos h
  exact ⟨hzero, List.length_eq_zero_iff.mp (hs.length.trans hzero)⟩

/-- The loop reads what is seen behind the addresses, page after page, as one block. -/
theorem copyLoop_read (hctx : ctx.Created) (hmm : mm.Serves ctx) {fuel : Nat}
    (hfuel : s.remaining.toNat < fuel) {old : List UInt8} (hs : s.Pending ctx mm x old y) :
    ∃ s', copyLoop mm false fuel s = some (statusSuccess, s') ∧ s'.mem = s.mem ∧
      s'.buffer = x ++ (readBytes (mm.table.view s.mem) s.va.toNat s.remaining.toNat ++ y) ∧
      ctx.Inside mm s'.touched := by
  induction fuel generalizing s x old with
  | zero => omega
  | succ fuel ih =>
    by_cases hmore : s.remaining > 0
    · obtain ⟨hpos, -, -⟩ := @chunkAt_bounds s.va s.remaining hmore
      obtain ⟨first, rest, rfl, hfirst⟩ := hs.split hmore
      obtain ⟨t, hstep, hfurther, hmem, ht⟩ := copyLoop_read_page hctx hmm fuel hs hmore hfirst
      have hremaining := hfurther.remaining
      obtain ⟨s', hloop, hmem', hbuffer, htouched⟩ := ih (by omega) ht
      refine ⟨s', hstep.trans hloop, hmem'.trans hmem, ?_, htouched⟩
      rw [hbuffer, hmem, hremaining, readBytes_add, List.append_assoc, List.append_assoc]
      rcases hfurther.va with hlast | hva
      · rw [hlast]
        rfl
      · rw [hva]
    · obtain ⟨hzero, rfl⟩ := hs.done hmore
      refine ⟨s, copyLoop_done mm false fuel hmore, rfl, ?_, hs.touched⟩
      rw [hs.buffer, hzero]
      rfl

/-- The loop writes the bytes behind the addresses, page after page, as one block. -/
theorem copyLoop_write (hctx : ctx.Created) (hmm : mm.Serves ctx) {fuel : Nat}
    (hfuel : s.remaining.toNat < fuel) {bs : List UInt8} (hs : s.Pending ctx mm x bs y) :
    ∃ s', copyLoop mm true fuel s = some (statusSuccess, s') ∧
      s'.mem = mm.table.storeAll s.mem (blockStores s.va.toNat bs) ∧
      ctx.Inside mm s'.touched := by
  induction fuel generalizing s x bs with
  | zero => omega
  | succ fuel ih =>
    by_cases hmore : s.remaining > 0
    · obtain ⟨hpos, -, -⟩ := @chunkAt_bounds s.va s.remaining hmore
      obtain ⟨first, rest, rfl, hfirst⟩ := hs.split hmore
      obtain ⟨t, hstep, hfurther, hmem, ht⟩ := copyLoop_write_page hctx hmm fuel hs hmore hfirst
      have hremaining := hfurther.remaining
      obtain ⟨s', hloop, hmem', htouched⟩ := ih (by omega) ht
      refine ⟨s', hstep.trans hloop, ?_, htouched⟩
      rw [hmem', hmem, blockStores_append, PageTable.storeAll_append]
      rcases hfurther.va with hlast | hva
      · rw [List.length_eq_zero_iff.mp (ht.length.trans hlast)]
        rfl
      · rw [hva]
    · obtain ⟨-, rfl⟩ := hs.done hmore
      exact ⟨s, copyLoop_done mm true fuel hmore, rfl, hs.touched⟩

end

/-! ### The checks -/

/-- The start of an admitted request. -/
theorem ringBase_add (hctx : ctx.Created) {req : KndPhysRw} (h : ctx.Admits req) :
    (ctx.ringBase + req.offset).toNat = ctx.ringBase.toNat + req.offset.toNat ∧
      ∀ i < req.length.toNat, ctx.Contains ((ctx.ringBase + req.offset).toNat + i) := by
  obtain ⟨hpos, -, hend⟩ := h
  have hfits := hctx.fits
  have hstart : (ctx.ringBase + req.offset).toNat = ctx.ringBase.toNat + req.offset.toNat := by
    rw [UInt64.toNat_add, Nat.mod_eq_of_lt (by omega)]
  refine ⟨hstart, fun i hi => ?_⟩
  rw [hstart]
  constructor <;> omega

/-- The comparison does not overflow: it admits what lies in the ring. -/
theorem checks_iff (ctx : CacheContext) (req : KndPhysRw) :
    (¬(req.length = 0 ∨ req.length > kndMaxPhysRw) ∧
      ¬(req.offset ≥ ctx.ringTotalSize ∨
        req.length.toUInt64 > ctx.ringTotalSize - req.offset)) ↔ ctx.Admits req := by
  have hzero : req.length = 0 ↔ req.length.toNat = 0 := by
    rw [← UInt32.toNat_inj]
    rfl
  have hmax : kndMaxPhysRw.toNat = 4096 := rfl
  unfold CacheContext.Admits
  simp only [hzero, ge_iff_le, gt_iff_lt, UInt32.lt_iff_toNat_lt, UInt64.le_iff_toNat_le,
    UInt64.lt_iff_toNat_lt, UInt32.toNat_toUInt64, hmax]
  rcases Nat.lt_or_ge req.offset.toNat ctx.ringTotalSize.toNat with hlt | hge
  · rw [UInt64.toNat_sub_of_le _ _ (UInt64.le_iff_toNat_le.mpr (by omega))]
    omega
  · omega

/-- Where the copy starts in the system buffer. -/
def CopyState.start (ctx : CacheContext) (mem : Memory) (req : KndPhysRw) (buffer : List UInt8)
    (ptr : Nat) : CopyState :=
  ⟨mem, buffer, [], ctx.ringBase + req.offset, ptr, req.length⟩

theorem kndScopedPhysCopy_admits (mm : Machine) (hctx : ctx.Created) (mem : Memory)
    {req : KndPhysRw} (h : ctx.Admits req) (buffer : List UInt8) (ptr : Nat) (isWrite : Bool) :
    kndScopedPhysCopy mm ctx mem req.offset req.length buffer ptr isWrite =
      copyLoop mm isWrite (req.length.toNat + 1) (.start ctx mem req buffer ptr) := by
  obtain ⟨hlength, hoffset⟩ := (checks_iff ctx req).mpr h
  unfold kndScopedPhysCopy
  rw [if_neg hctx.ringBase, if_neg hlength, if_neg hoffset]
  rfl

theorem kndScopedPhysCopy_rejects (mm : Machine) (hctx : ctx.Created) (mem : Memory)
    {req : KndPhysRw} (h : ¬ctx.Admits req) (buffer : List UInt8) (ptr : Nat) (isWrite : Bool) :
    kndScopedPhysCopy mm ctx mem req.offset req.length buffer ptr isWrite =
      some (statusInvalidParameter, .start ctx mem req buffer ptr) := by
  unfold kndScopedPhysCopy
  rw [if_neg hctx.ringBase]
  by_cases hlength : req.length = 0 ∨ req.length > kndMaxPhysRw
  · rw [if_pos hlength]
    rfl
  · have hoffset := fun hin => h ((checks_iff ctx req).mp ⟨hlength, hin⟩)
    rw [if_neg hlength, if_pos (not_not.mp hoffset)]
    rfl

/-! ### The requests are slice copies -/

/-- A completed read: exactly the slice that was asked for, if it lies in the ring. -/
structure Completed.ReadsSlice (c : Completed) (mm : Machine) (ctx : CacheContext) (mem : Memory)
    (irp : Irp) (req : KndPhysRw) : Prop where
  succeeds_iff : ntSuccess c.status = true ↔ sizeofKndPhysRw ≤ irp.inputBufferLength.toNat ∧
    ctx.Admits req ∧ req.length.toNat ≤ irp.outputBufferLength.toNat
  unchanged : c.mem = mem
  output : c.output = if ntSuccess c.status then
    ((ctx.region mm mem).drop req.offset.toNat).take req.length.toNat else []
  inside : ctx.Inside mm c.touched

/-- A completed write: exactly the slice has changed, to the bytes behind the request. -/
structure Completed.WritesSlice (c : Completed) (mm : Machine) (ctx : CacheContext) (mem : Memory)
    (irp : Irp) (req : KndPhysRw) : Prop where
  succeeds_iff : ntSuccess c.status = true ↔ ctx.Admits req ∧
    sizeofKndPhysRw + req.length.toNat ≤ irp.inputBufferLength.toNat
  region : ctx.region mm c.mem = if ntSuccess c.status then
    (ctx.region mm mem).take req.offset.toNat ++
      (irp.systemBuffer.drop sizeofKndPhysRw).take req.length.toNat ++
      (ctx.region mm mem).drop (req.offset.toNat + req.length.toNat)
    else ctx.region mm mem
  frame : ∀ pa, (∀ i < req.length.toNat,
    pa ≠ mm.table.translate (ctx.ringBase.toNat + req.offset.toNat + i)) → c.mem pa = mem pa
  unchanged : ntSuccess c.status = false → c.mem = mem
  output : c.output = []
  inside : ctx.Inside mm c.touched

/-- What the dispatcher reads of a request. -/
def Irp.request (irp : Irp) : KndPhysRw := KndPhysRw.read (pointer irp.systemBuffer)

theorem region_slice (mm : Machine) (ctx : CacheContext) (mem : Memory) {off n : Nat}
    (h : off + n ≤ ctx.ringTotalSize.toNat) :
    readBytes (mm.table.view mem) (ctx.ringBase.toNat + off) n =
      ((ctx.region mm mem).drop off).take n := by
  have hsplit : ctx.ringTotalSize.toNat = off + (n + (ctx.ringTotalSize.toNat - (off + n))) := by
    omega
  rw [CacheContext.region, hsplit, readBytes_add, List.drop_left' (readBytes_length ..),
    readBytes_add, List.take_left' (readBytes_length ..)]

theorem region_storeAll (hmm : mm.Serves ctx) (mem : Memory) {off : Nat} {bs : List UInt8}
    (h : off + bs.length ≤ ctx.ringTotalSize.toNat) :
    ctx.region mm (mm.table.storeAll mem (blockStores (ctx.ringBase.toNat + off) bs)) =
      (ctx.region mm mem).take off ++ bs ++ (ctx.region mm mem).drop (off + bs.length) := by
  unfold CacheContext.region
  rw [← readBytes_putAll_blockStores (mm.table.view mem) h]
  refine readBytes_congr fun i hi => ?_
  apply PageTable.view_storeAll hmm.own (Nat.zero_lt_succ _) mem
  · intro st hst
    obtain ⟨hle, hlt⟩ := mem_blockStores hst
    exact ⟨by omega, by omega⟩
  · exact ⟨Nat.le_add_right .., Nat.add_lt_add_left hi _⟩

/-- A request that is turned down has touched nothing. -/
structure Completed.Untouched (c : Completed) (mem : Memory) : Prop where
  status : ntSuccess c.status = false
  information : c.information = 0
  mem : c.mem = mem
  touched : c.touched = []

theorem Completed.Untouched.failed {c : Completed} {mem : Memory} (h : c.Untouched mem) :
    ¬ntSuccess c.status = true := by
  rw [h.status]
  exact Bool.false_ne_true

theorem Completed.Untouched.output {c : Completed} {mem : Memory} (h : c.Untouched mem) :
    c.output = [] := by
  rw [Completed.output, h.information, List.take_zero]

theorem Completed.Untouched.inside {c : Completed} {mem : Memory} (h : c.Untouched mem) :
    ctx.Inside mm c.touched := by
  rw [h.touched]
  exact fun pa hpa => absurd hpa List.not_mem_nil

theorem Completed.Untouched.readsSlice {c : Completed} {mem : Memory} (h : c.Untouched mem)
    {irp : Irp} {req : KndPhysRw} (hreject : ¬(sizeofKndPhysRw ≤ irp.inputBufferLength.toNat ∧
      ctx.Admits req ∧ req.length.toNat ≤ irp.outputBufferLength.toNat)) :
    c.ReadsSlice mm ctx mem irp req := by
  constructor
  case succeeds_iff => exact iff_of_false h.failed hreject
  case unchanged => exact h.mem
  case output => rw [if_neg h.failed, h.output]
  case inside => exact h.inside

theorem Completed.Untouched.writesSlice {c : Completed} {mem : Memory} (h : c.Untouched mem)
    {irp : Irp} {req : KndPhysRw} (hreject : ¬(ctx.Admits req ∧
      sizeofKndPhysRw + req.length.toNat ≤ irp.inputBufferLength.toNat)) :
    c.WritesSlice mm ctx mem irp req := by
  constructor
  case succeeds_iff => exact iff_of_false h.failed hreject
  case region => rw [if_neg h.failed, h.mem]
  case frame => intro pa _; rw [h.mem]
  case unchanged => intro _; exact h.mem
  case output => exact h.output
  case inside => exact h.inside

theorem start_pending (hctx : ctx.Created) (mem : Memory) {req : KndPhysRw} (h : ctx.Admits req)
    {x bs y : List UInt8} (hbs : bs.length = req.length.toNat) :
    (CopyState.start ctx mem req (x ++ (bs ++ y)) x.length).Pending ctx mm x bs y where
  buffer := rfl
  ptr := rfl
  length := hbs
  contained := (ringBase_add hctx h).2
  touched := fun _ hpa => absurd hpa List.not_mem_nil

theorem kndScopedPhysCopy_read (hctx : ctx.Created) (hmm : mm.Serves ctx) (mem : Memory)
    {req : KndPhysRw} (h : ctx.Admits req) (x : List UInt8) {old : List UInt8} (y : List UInt8)
    (hold : old.length = req.length.toNat) :
    ∃ s', kndScopedPhysCopy mm ctx mem req.offset req.length (x ++ (old ++ y)) x.length false =
        some (statusSuccess, s') ∧ s'.mem = mem ∧
      s'.buffer =
        x ++ (((ctx.region mm mem).drop req.offset.toNat).take req.length.toNat ++ y) ∧
      ctx.Inside mm s'.touched := by
  have hs := @start_pending mm ctx hctx mem req h x old y hold
  obtain ⟨s', hloop, hmem, hbuffer, htouched⟩ := copyLoop_read hctx hmm (Nat.lt_succ_self _) hs
  refine ⟨s', (kndScopedPhysCopy_admits mm hctx mem h ..).trans hloop, hmem, ?_, htouched⟩
  rw [hbuffer, ← region_slice mm ctx mem h.2.2, ← (ringBase_add hctx h).1]
  rfl

theorem kndScopedPhysCopy_write (hctx : ctx.Created) (hmm : mm.Serves ctx) (mem : Memory)
    {req : KndPhysRw} (h : ctx.Admits req) (x : List UInt8) {bs : List UInt8} (y : List UInt8)
    (hbs : bs.length = req.length.toNat) :
    ∃ s', kndScopedPhysCopy mm ctx mem req.offset req.length (x ++ (bs ++ y)) x.length true =
        some (statusSuccess, s') ∧
      s'.mem = mm.table.storeAll mem
        (blockStores (ctx.ringBase.toNat + req.offset.toNat) bs) ∧
      ctx.Inside mm s'.touched := by
  have hs := @start_pending mm ctx hctx mem req h x bs y hbs
  obtain ⟨s', hloop, hmem, htouched⟩ := copyLoop_write hctx hmm (Nat.lt_succ_self _) hs
  refine ⟨s', (kndScopedPhysCopy_admits mm hctx mem h ..).trans hloop, ?_, htouched⟩
  rw [hmem, ← (ringBase_add hctx h).1]
  rfl

/-- `IOCTL_KND_PHYS_READ` of any request. -/
theorem physRead_slice (hctx : ctx.Created) (hmm : mm.Serves ctx) (mem : Memory) (irp : Irp) :
    ∃ c, ioctlKndPhysRead mm ctx mem irp = some c ∧ c.ReadsSlice mm ctx mem irp irp.request := by
  unfold ioctlKndPhysRead
  by_cases hin : irp.inputBufferLength.toNat < sizeofKndPhysRw
  · rw [if_pos hin]
    exact ⟨_, rfl, Completed.Untouched.readsSlice ⟨rfl, rfl, rfl, rfl⟩ (by omega)⟩
  rw [if_neg hin]
  dsimp only
  rw [← Irp.request]
  by_cases hlength : irp.request.length = 0 ∨ irp.request.length > kndMaxPhysRw
  · rw [if_pos hlength]
    refine ⟨_, rfl, Completed.Untouched.readsSlice ⟨rfl, rfl, rfl, rfl⟩ ?_⟩
    rintro ⟨-, hadmits, -⟩
    exact ((checks_iff ctx _).mpr hadmits).1 hlength
  rw [if_neg hlength]
  by_cases hout : irp.outputBufferLength < irp.request.length
  · rw [if_pos hout]
    rw [UInt32.lt_iff_toNat_lt] at hout
    exact ⟨_, rfl, Completed.Untouched.readsSlice ⟨rfl, rfl, rfl, rfl⟩ (by omega)⟩
  rw [if_neg hout]
  rw [UInt32.lt_iff_toNat_lt] at hout
  by_cases hadmits : ctx.Admits irp.request
  · obtain ⟨old, y, hsplit, hold⟩ : ∃ old y, irp.systemBuffer = [] ++ (old ++ y) ∧
        old.length = irp.request.length.toNat :=
      ⟨_, _, (List.take_append_drop _ _).symm, List.length_take_of_le (by rw [irp.buffered]; omega)⟩
    obtain ⟨s', hcopy, hmem, hbuffer, htouched⟩ :=
      kndScopedPhysCopy_read hctx hmm mem hadmits [] y hold
    have hregion : (ctx.region mm mem).length = ctx.ringTotalSize.toNat := readBytes_length ..
    have hend := hadmits.2.2
    rw [hsplit, show 0 = ([] : List UInt8).length from rfl, hcopy]
    refine ⟨_, rfl, ?_, hmem, ?_, htouched⟩
    · exact iff_of_true rfl ⟨by omega, hadmits, by omega⟩
    · show s'.buffer.take irp.request.length.toNat = _
      rw [hbuffer, List.nil_append,
        List.take_left' (by simp only [List.length_take, List.length_drop]; omega)]
      rfl
  · rw [kndScopedPhysCopy_rejects mm hctx mem hadmits]
    exact ⟨_, rfl, Completed.Untouched.readsSlice ⟨rfl, rfl, rfl, rfl⟩ fun h => hadmits h.2.1⟩

/-- `IOCTL_KND_PHYS_WRITE` of any request. -/
theorem physWrite_slice (hctx : ctx.Created) (hmm : mm.Serves ctx) (mem : Memory) (irp : Irp) :
    ∃ c, ioctlKndPhysWrite mm ctx mem irp = some c ∧
      c.WritesSlice mm ctx mem irp irp.request := by
  unfold ioctlKndPhysWrite
  by_cases hin : irp.inputBufferLength.toNat < sizeofKndPhysRw
  · rw [if_pos hin]
    exact ⟨_, rfl, Completed.Untouched.writesSlice ⟨rfl, rfl, rfl, rfl⟩ (by omega)⟩
  rw [if_neg hin]
  dsimp only
  rw [← Irp.request]
  by_cases hlength : irp.request.length = 0 ∨ irp.request.length > kndMaxPhysRw
  · rw [if_pos hlength]
    refine ⟨_, rfl, Completed.Untouched.writesSlice ⟨rfl, rfl, rfl, rfl⟩ ?_⟩
    rintro ⟨hadmits, -⟩
    exact ((checks_iff ctx _).mpr hadmits).1 hlength
  rw [if_neg hlength]
  by_cases hdata : irp.inputBufferLength.toNat < sizeofKndPhysRw + irp.request.length.toNat
  · rw [if_pos hdata]
    exact ⟨_, rfl, Completed.Untouched.writesSlice ⟨rfl, rfl, rfl, rfl⟩ (by omega)⟩
  rw [if_neg hdata]
  by_cases hadmits : ctx.Admits irp.request
  · have hbuffered := irp.buffered
    obtain ⟨x, bs, y, hsplit, hx, hbs, hbytes⟩ : ∃ x bs y, irp.systemBuffer = x ++ (bs ++ y) ∧
        x.length = sizeofKndPhysRw ∧ bs.length = irp.request.length.toNat ∧
        bs = (irp.systemBuffer.drop sizeofKndPhysRw).take irp.request.length.toNat := by
      refine ⟨irp.systemBuffer.take sizeofKndPhysRw, _,
        (irp.systemBuffer.drop sizeofKndPhysRw).drop irp.request.length.toNat, ?_,
        List.length_take_of_le (by omega), ?_, rfl⟩
      · rw [List.take_append_drop, List.take_append_drop]
      · rw [List.length_take, List.length_drop]
        omega
    obtain ⟨s', hcopy, hmem, htouched⟩ := kndScopedPhysCopy_write hctx hmm mem hadmits x y hbs
    have hend := hadmits.2.2
    rw [hsplit, ← hx, hcopy]
    refine ⟨_, rfl, ?_, ?_, ?_, ?_, rfl, htouched⟩
    · exact iff_of_true rfl ⟨hadmits, by omega⟩
    · show ctx.region mm s'.mem = _
      rw [hmem, region_storeAll hmm mem (by omega), ← hbytes, hbs]
      rfl
    · intro pa hpa
      show s'.mem pa = mem pa
      rw [hmem]
      refine Memory.putAll_frame mem fun st hst => ?_
      obtain ⟨st', hst', rfl⟩ := List.mem_map.mp hst
      obtain ⟨hle, hlt⟩ := mem_blockStores hst'
      have hne := hpa (st'.1 - (ctx.ringBase.toNat + irp.request.offset.toNat)) (by omega)
      rwa [Nat.add_sub_cancel' hle] at hne
    · intro h
      cases h
  · rw [kndScopedPhysCopy_rejects mm hctx mem hadmits]
    exact ⟨_, rfl, Completed.Untouched.writesSlice ⟨rfl, rfl, rfl, rfl⟩ fun h => hadmits h.1⟩

/-- The scoped physical read and write are bounded slice copies of the ring, for every request. -/
theorem scopedPhys_exact (hctx : ctx.Created) (hmm : mm.Serves ctx) (mem : Memory) (irp : Irp) :
    (∃ c, ioctlKndPhysRead mm ctx mem irp = some c ∧
      c.ReadsSlice mm ctx mem irp irp.request) ∧
    ∃ c, ioctlKndPhysWrite mm ctx mem irp = some c ∧
      c.WritesSlice mm ctx mem irp irp.request :=
  ⟨physRead_slice hctx hmm mem irp, physWrite_slice hctx hmm mem irp⟩

/-- Pages in reverse order. -/
def someMachine : Machine where
  frame p := 100 - p
  getPhysicalAddress va := (100 - va.toNat / 4096) * 4096 + va.toNat % 4096
  copyMemory mem pa n := (statusSuccess, readBytes mem pa n.toNat)

/-- A ring that starts in the middle of a page. -/
def someRing : CacheContext := ⟨0x1800, 0x2000⟩

theorem someRing_created : someRing.Created := ⟨by decide, by decide⟩

theorem someMachine_serves : someMachine.Serves someRing := by
  have hpages {va : Nat} (h : someRing.Contains va) : va / 4096 < 100 := by
    have hlt : va < 0x1800 + 0x2000 := h.2
    omega
  constructor
  case translates =>
    intro va hva
    have hpage := hpages hva
    refine ⟨rfl, ?_⟩
    show (100 - va.toNat / 4096) * 4096 + va.toNat % 4096 ≠ 0
    omega
  case copies => intro mem va n _ _; rfl
  case own =>
    intro va hva va' hva' (hframe : 100 - va / 4096 = 100 - va' / 4096)
    have hpage := hpages hva
    have hpage' := hpages hva'
    show va / 4096 = va' / 4096
    omega

/-- A request across a page boundary. -/
def crossing : Irp where
  inputBufferLength := 16 + 0x200
  outputBufferLength := 0x200
  systemBuffer := leBytes 8 0x700 ++ leBytes 4 0x200 ++ leBytes 4 0 ++ List.replicate 0x200 7
  buffered := by
    simp only [List.length_append, leBytes_length, List.length_replicate]
    rfl

example : crossing.request = ⟨0x700, 0x200⟩ := by decide +kernel

theorem scopedPhys_exact_crossing :
    (∃ c, ioctlKndPhysRead someMachine someRing UInt8.ofNat crossing = some c ∧
      c.ReadsSlice someMachine someRing UInt8.ofNat crossing crossing.request) ∧
    ∃ c, ioctlKndPhysWrite someMachine someRing UInt8.ofNat crossing = some c ∧
      c.WritesSlice someMachine someRing UInt8.ofNat crossing crossing.request :=
  scopedPhys_exact someRing_created someMachine_serves UInt8.ofNat crossing

end NetDebugger.Driver
