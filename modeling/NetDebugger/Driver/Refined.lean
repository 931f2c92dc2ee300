import NetDebugger.Driver.Panel

/-! The dispatcher refines the panel over every run of requests, and a request that fails leaves no
trace in the run. -/

namespace NetDebugger.Driver

open Lib

variable {Process : Type} [DecidableEq Process]

/-! ### One request -/

section

variable {mm : Machine} {k : Kernel Process} {c : ControlCall Process}

/-- A request that is turned down. -/
theorem serves_error {status : NtStatus} (hstatus : ntSuccess status = false)
    (h : (k.panel mm).serve c.ask = (k.panel mm, .error status)) :
    (c.irp.ends status).Serves mm k k c where
  cache := rfl
  panel := by
    rw [h, Reply.answer, Irp.ends, hstatus]
    rfl
  room := Nat.zero_le _
  failed := fun _ => ⟨rfl, rfl⟩

/-- A request without output. -/
theorem serves_done {k' : Kernel Process} (hcache : k'.cache = k.cache)
    (h : (k.panel mm).serve c.ask = (k'.panel mm, .ok [])) :
    (c.irp.ends statusSuccess).Serves mm k k' c where
  cache := hcache
  panel := h.symm
  room := Nat.zero_le _
  failed := nofun

/-- A request whose output has been filled in. -/
theorem serves_filled {k' : Kernel Process} {r : Reply} {bs : List UInt8}
    (hcache : k'.cache = k.cache) (hstatus : r.status = statusSuccess)
    (hinformation : r.information = bs.length) (houtput : r.output = bs)
    (hroom : bs.length ≤ c.irp.outputBufferLength.toNat)
    (h : (k.panel mm).serve c.ask = (k'.panel mm, .ok bs)) : r.Serves mm k k' c where
  cache := hcache
  panel := by
    rw [h, Reply.answer, hstatus, houtput]
    rfl
  room := hinformation ▸ hroom
  failed := by
    rw [hstatus]
    nofun

/-- A request that is answered if there is room for the answer. -/
theorem answered_serves {bs : List UInt8}
    (h : (k.panel mm).serve c.ask = answered (k.panel mm) c.irp.outputBufferLength.toNat bs) :
    ∃ k' r, (if c.irp.outputBufferLength.toNat < bs.length then
        some (k, c.irp.ends statusBufferTooSmall)
      else (c.irp.fills bs).map fun r => (k, r)) = some (k', r) ∧ r.Serves mm k k' c := by
  unfold answered at h
  by_cases hroom : c.irp.outputBufferLength.toNat < bs.length
  · rw [if_pos hroom] at h ⊢
    exact ⟨k, _, rfl, serves_error rfl h⟩
  · rw [if_neg hroom] at h ⊢
    obtain ⟨r, hfills, hstatus, hinformation, houtput⟩ := Irp.fills_of_le (Nat.le_of_not_lt hroom)
    rw [hfills]
    exact ⟨k, r, rfl, serves_filled rfl hstatus hinformation houtput (Nat.le_of_not_lt hroom) h⟩

/-- The driver answers a request to map the ring as the panel does. -/
theorem kndMapRingToUser_map (mm : Machine) (k : Kernel Process) (current : Process)
    (answer : MmAnswer) :
    match kndMapRingToUser k.mapping current answer with
    | (mapping, .ok out) =>
      (k.panel mm).map current answer = (({ k with mapping } : Kernel Process).panel mm, .ok out.bytes)
    | (mapping, .error status) =>
      mapping = k.mapping ∧ ntSuccess status = false ∧
        (k.panel mm).map current answer = (k.panel mm, .error status) := by
  unfold kndMapRingToUser Panel.map Kernel.panel DeviceContext.size DeviceContext.lease
  cases hmdl : k.mapping.ringMdl with
  | false => exact ⟨rfl, rfl, rfl⟩
  | true =>
    cases hva : k.mapping.userVa with
    | some va =>
      by_cases hp : k.mapping.mapProcess = some current
      · simp only [hp, hmdl, hva, Bool.not_true, Bool.false_eq_true, if_false, if_true,
          Option.map_some]
        rfl
      · simp only [hp, Bool.not_true, Bool.false_eq_true, if_false, if_true, Option.map_some]
        exact ⟨trivial, rfl, trivial⟩
    | none =>
      cases answer with
      | address va =>
        by_cases h0 : va = 0
        · simp only [h0, MmAnswer.granted, Bool.not_true, Bool.false_eq_true, if_false, if_true,
            Option.map_none]
          exact ⟨trivial, rfl, trivial⟩
        · simp only [h0, MmAnswer.granted, Bool.not_true, Bool.false_eq_true, if_false, if_true,
            Option.map_none, Option.map_some]
          rfl
      | raised code =>
        refine ⟨rfl, ?_, rfl⟩
        split
        · rfl
        · next hcode => exact eq_false_of_ne_true hcode

theorem kndUnmapRingFromUser_unmap (mm : Machine) (k : Kernel Process) (current : Process) :
    (k.panel mm).unmap current =
      ({ k with mapping := kndUnmapRingFromUser k.mapping current } : Kernel Process).panel mm := by
  unfold kndUnmapRingFromUser Panel.unmap Kernel.panel DeviceContext.size DeviceContext.lease
  cases hva : k.mapping.userVa with
  | none => simp [hva]
  | some va =>
    by_cases hp : k.mapping.mapProcess = some current
    · simp [hp]
    · simp [hp, hva]

omit [DecidableEq Process] in
theorem kndSetRedirect_redirect (mm : Machine) (k : Kernel Process) {input : List UInt8}
    (h : sizeofKndRedirectIn ≤ input.length) :
    (k.panel mm).redirect input =
      ({ k with redirect := Redirect.kndSetRedirect k.redirect (redirectIn (pointer input)) } :
        Kernel Process).panel mm := by
  have hsize : sizeofKndRedirectIn = 8 := rfl
  have henable : readNat (pointer input) 0 4 = leNat (part input 0 4) :=
    congrArg leNat (readBytes_pointer (by omega))
  have hport : readNat (pointer input) 4 2 = leNat (part input 4 2) :=
    congrArg leNat (readBytes_pointer (by omega))
  have hlt : leNat (part input 0 4) < 2 ^ 32 := henable ▸ readNat_lt ..
  have hswitch : (UInt32.ofNat (leNat (part input 0 4)) ≠ 0) ↔
      (part input 0 4).any (· ≠ 0) = true := by
    rw [← leNat_ne_zero, ne_eq, ← UInt32.toNat_inj, UInt32.toNat_ofNat_of_lt' hlt]
    rfl
  unfold Panel.redirect Kernel.panel Redirect.kndSetRedirect redirectIn
  simp only [henable, hport, hswitch, Bool.decide_eq_true]

theorem mapRing_serves (hcode : Ioctl.ofCode c.code = some .mapRing) :
    ∃ k' r, k.control mm c.map c.current c.irp (some .mapRing) = some (k', r) ∧
      r.Serves mm k k' c := by
  have hserve : (k.panel mm).serve c.ask =
      if c.irp.outputBufferLength.toNat < sizeofKndMapRingOut then
        (k.panel mm, .error statusBufferTooSmall)
      else (k.panel mm).map c.current c.map := by
    rw [Panel.serve, ControlCall.ask, hcode]
  unfold Kernel.control
  by_cases hroom : c.irp.outputBufferLength.toNat < sizeofKndMapRingOut
  · rw [if_pos hroom] at hserve ⊢
    exact ⟨k, _, rfl, serves_error rfl hserve⟩
  rw [if_neg hroom] at hserve ⊢
  have hmap := kndMapRingToUser_map mm k c.current c.map
  rw [← hserve] at hmap
  generalize kndMapRingToUser k.mapping c.current c.map = answer at hmap ⊢
  obtain ⟨mapping, result⟩ := answer
  cases result with
  | error status =>
    obtain ⟨rfl, hstatus, hmap⟩ := hmap
    exact ⟨k, _, rfl, serves_error hstatus hmap⟩
  | ok out =>
    have hlen : out.bytes.length = sizeofKndMapRingOut := by
      simp only [KndMapRingOut.bytes, List.length_append, leBytes_length]
      rfl
    obtain ⟨r, hfills, hstatus, hinformation, houtput⟩ :=
      @Irp.fills_of_le c.irp out.bytes (by omega)
    dsimp only
    rw [hfills]
    exact ⟨{ k with mapping }, r, rfl,
      serves_filled rfl hstatus hinformation houtput (by omega) hmap⟩

/-- The length of a scoped physical request is checked twice, and in two ways. -/
theorem length_check (n : UInt32) :
    (n = 0 ∨ n > kndMaxPhysRw) ↔ n.toNat = 0 ∨ kndMaxPhysRw.toNat < n.toNat := by
  rw [gt_iff_lt, UInt32.lt_iff_toNat_lt, ← UInt32.toNat_inj]
  rfl

theorem not_admits {ctx : CacheContext} {req : KndPhysRw} (hlength : ¬(req.length.toNat = 0 ∨
    kndMaxPhysRw.toNat < req.length.toNat)) :
    ¬ctx.Admits req ↔ ctx.ringTotalSize.toNat < req.offset.toNat + req.length.toNat := by
  unfold CacheContext.Admits
  omega

theorem physRead_serves (hk : k.Ready mm) (hcode : Ioctl.ofCode c.code = some .physRead) :
    ∃ k' r, k.control mm c.map c.current c.irp (some .physRead) = some (k', r) ∧
      r.Serves mm k k' c := by
  have hserve : (k.panel mm).serve c.ask =
      if c.irp.input.length < sizeofKndPhysRw then (k.panel mm, .error statusBufferTooSmall)
      else (k.panel mm).read (KndPhysRw.read (pointer c.irp.input))
        c.irp.outputBufferLength.toNat := serve_physRead hcode (k.panel mm)
  unfold Kernel.control ioctlKndPhysRead
  rw [Irp.input_length] at hserve
  by_cases hin : c.irp.inputBufferLength.toNat < sizeofKndPhysRw
  · rw [if_pos hin] at hserve ⊢
    exact ⟨k, _, rfl, serves_error rfl hserve⟩
  rw [if_neg hin, Irp.request_input (Nat.le_of_not_lt hin), Panel.read] at hserve
  rw [if_neg hin]
  dsimp only
  rw [← Irp.request]
  have hcheck := length_check c.irp.request.length
  by_cases hlength : c.irp.request.length = 0 ∨ c.irp.request.length > kndMaxPhysRw
  · rw [if_pos (hcheck.mp hlength)] at hserve
    rw [if_pos hlength]
    exact ⟨k, _, rfl, serves_error rfl hserve⟩
  have hlength' := mt hcheck.mpr hlength
  rw [if_neg hlength'] at hserve
  rw [if_neg hlength]
  by_cases hout : c.irp.outputBufferLength < c.irp.request.length
  · rw [if_pos (UInt32.lt_iff_toNat_lt.mp hout)] at hserve
    rw [if_pos hout]
    exact ⟨k, _, rfl, serves_error rfl hserve⟩
  have hout' := mt UInt32.lt_iff_toNat_lt.mpr hout
  have hregion := region_length mm k.cache k.mem
  rw [if_neg hout'] at hserve
  rw [if_neg hout]
  by_cases hadmits : k.cache.Admits c.irp.request
  · have hinside := mt (not_admits hlength').mpr (not_not.mpr hadmits)
    rw [if_neg (by rw [Kernel.panel, hregion]; exact hinside)] at hserve
    obtain ⟨old, y, hsplit, hold⟩ : ∃ old y, c.irp.systemBuffer = [] ++ (old ++ y) ∧
        old.length = c.irp.request.length.toNat :=
      ⟨_, _, (List.take_append_drop _ _).symm,
        List.length_take_of_le (by rw [c.irp.buffered]; omega)⟩
    obtain ⟨s', hcopy, hmem, hbuffer, -⟩ :=
      kndScopedPhysCopy_read hk.created hk.serves k.mem hadmits [] y hold
    have hpart : (part (k.cache.region mm k.mem) c.irp.request.offset.toNat
        c.irp.request.length.toNat).length = c.irp.request.length.toNat :=
      part_length (by rw [hregion]; exact hadmits.2.2)
    rw [hsplit, show 0 = ([] : List UInt8).length from rfl, hcopy]
    refine ⟨_, _, rfl, serves_filled rfl rfl hpart.symm ?_ (by omega) ?_⟩
    · show s'.buffer.take c.irp.request.length.toNat = _
      rw [hbuffer, List.nil_append]
      exact List.take_left' hpart
    · show _ = (({ k with mem := s'.mem } : Kernel Process).panel mm, _)
      rw [hmem]
      exact hserve
  · have houtside := (not_admits hlength').mp hadmits
    rw [if_pos (by rw [Kernel.panel, hregion]; exact houtside)] at hserve
    rw [kndScopedPhysCopy_rejects mm hk.created k.mem hadmits]
    exact ⟨k, _, rfl, serves_error rfl hserve⟩

theorem physWrite_serves (hk : k.Ready mm) (hcode : Ioctl.ofCode c.code = some .physWrite) :
    ∃ k' r, k.control mm c.map c.current c.irp (some .physWrite) = some (k', r) ∧
      r.Serves mm k k' c := by
  have hserve : (k.panel mm).serve c.ask =
      if c.irp.input.length < sizeofKndPhysRw then (k.panel mm, .error statusBufferTooSmall)
      else (k.panel mm).write (KndPhysRw.read (pointer c.irp.input))
        (c.irp.input.drop sizeofKndPhysRw) := serve_physWrite hcode (k.panel mm)
  unfold Kernel.control ioctlKndPhysWrite
  rw [Irp.input_length] at hserve
  by_cases hin : c.irp.inputBufferLength.toNat < sizeofKndPhysRw
  · rw [if_pos hin] at hserve ⊢
    exact ⟨k, _, rfl, serves_error rfl hserve⟩
  rw [if_neg hin, Irp.request_input (Nat.le_of_not_lt hin), Panel.write] at hserve
  rw [if_neg hin]
  dsimp only
  rw [← Irp.request]
  have hcheck := length_check c.irp.request.length
  by_cases hlength : c.irp.request.length = 0 ∨ c.irp.request.length > kndMaxPhysRw
  · rw [if_pos (hcheck.mp hlength)] at hserve
    rw [if_pos hlength]
    exact ⟨k, _, rfl, serves_error rfl hserve⟩
  have hlength' := mt hcheck.mpr hlength
  rw [if_neg hlength'] at hserve
  rw [if_neg hlength]
  rw [List.length_drop, Irp.input_length] at hserve
  by_cases hdata : c.irp.inputBufferLength.toNat < sizeofKndPhysRw + c.irp.request.length.toNat
  · rw [if_pos (by omega)] at hserve
    rw [if_pos hdata]
    exact ⟨k, _, rfl, serves_error rfl hserve⟩
  have hregion := region_length mm k.cache k.mem
  rw [if_neg (by omega)] at hserve
  rw [if_neg hdata]
  by_cases hadmits : k.cache.Admits c.irp.request
  · have hinside := mt (not_admits hlength').mpr (not_not.mpr hadmits)
    rw [if_neg (by rw [Kernel.panel, hregion]; exact hinside)] at hserve
    have hbuffered := c.irp.buffered
    obtain ⟨x, bs, y, hsplit, hx, hbs, hbytes⟩ : ∃ x bs y, c.irp.systemBuffer = x ++ (bs ++ y) ∧
        x.length = sizeofKndPhysRw ∧ bs.length = c.irp.request.length.toNat ∧
        bs = (c.irp.input.drop sizeofKndPhysRw).take c.irp.request.length.toNat := by
      refine ⟨c.irp.systemBuffer.take sizeofKndPhysRw,
        (c.irp.systemBuffer.drop sizeofKndPhysRw).take c.irp.request.length.toNat,
        (c.irp.systemBuffer.drop sizeofKndPhysRw).drop c.irp.request.length.toNat, ?_,
        List.length_take_of_le (by omega), ?_, ?_⟩
      · rw [List.take_append_drop, List.take_append_drop]
      · rw [List.length_take, List.length_drop]
        omega
      · rw [Irp.input, List.drop_take, List.take_take, Nat.min_eq_left (by omega)]
    obtain ⟨s', hcopy, hmem, -⟩ :=
      kndScopedPhysCopy_write hk.created hk.serves k.mem hadmits x y hbs
    rw [hsplit, ← hx, hcopy]
    have hnil : 0 = ([] : List UInt8).length := List.length_nil.symm
    refine ⟨_, _, rfl, serves_filled rfl rfl hnil rfl (Nat.zero_le _) ?_⟩
    rw [hserve]
    show _ = (({ k with mem := s'.mem } : Kernel Process).panel mm, _)
    have hpatch := @region_storeAll _ _ hk.serves k.mem c.irp.request.offset.toNat bs
      (by rw [hbs]; exact hadmits.2.2)
    unfold Kernel.panel
    rw [hmem, hpatch, ← hbytes]
    rfl
  · have houtside := (not_admits hlength').mp hadmits
    rw [if_pos (by rw [Kernel.panel, hregion]; exact houtside)] at hserve
    rw [kndScopedPhysCopy_rejects mm hk.created k.mem hadmits]
    exact ⟨k, _, rfl, serves_error rfl hserve⟩

/-- Every request is served. -/
theorem control_serves (hk : k.Ready mm) (c : ControlCall Process) :
    ∃ k' r, k.control mm c.map c.current c.irp (Ioctl.ofCode c.code) = some (k', r) ∧
      r.Serves mm k k' c := by
  obtain hcode | ⟨i, hcode⟩ := Option.eq_none_or_eq_some (Ioctl.ofCode c.code)
  · rw [hcode]
    refine ⟨k, _, rfl, serves_error rfl ?_⟩
    rw [Panel.serve, ControlCall.ask, hcode]
  rw [hcode]
  cases i with
  | getVersion =>
    refine @answered_serves _ _ _ _ _ versionBytes ?_
    rw [Panel.serve, ControlCall.ask, hcode]
  | mapRing => exact mapRing_serves hcode
  | unmapRing =>
    refine ⟨_, _, rfl, serves_done rfl ?_⟩
    rw [Panel.serve, ControlCall.ask, hcode, ← kndUnmapRingFromUser_unmap]
  | startCapture =>
    refine ⟨_, _, rfl, serves_done rfl ?_⟩
    rw [Panel.serve, ControlCall.ask, hcode, Kernel.setCapture_panel hk]
  | stopCapture =>
    refine ⟨_, _, rfl, serves_done rfl ?_⟩
    rw [Panel.serve, ControlCall.ask, hcode, Kernel.setCapture_panel hk]
  | getStats =>
    have hlen : (statsBytes (k.stats mm)).length = sizeofKndStatsOut := by
      simp only [statsBytes, List.length_append, leBytes_length]
      rfl
    unfold Kernel.control
    rw [if_neg hk.created.ringBase, ← hlen]
    refine answered_serves ?_
    rw [Panel.serve, ControlCall.ask, hcode, Kernel.statsBytes_eq hk]
  | setRedirect =>
    have hserve : (k.panel mm).serve c.ask =
        if c.irp.input.length < sizeofKndRedirectIn then (k.panel mm, .error statusBufferTooSmall)
        else ((k.panel mm).redirect c.irp.input, .ok []) := by
      rw [Panel.serve, ControlCall.ask, hcode]
    unfold Kernel.control
    rw [Irp.input_length] at hserve
    by_cases hin : c.irp.inputBufferLength.toNat < sizeofKndRedirectIn
    · rw [if_pos hin] at hserve ⊢
      exact ⟨k, _, rfl, serves_error rfl hserve⟩
    · rw [if_neg hin, kndSetRedirect_redirect mm k (by rw [Irp.input_length]; omega),
        Irp.redirectIn_input (Nat.le_of_not_lt hin)] at hserve
      rw [if_neg hin]
      exact ⟨_, _, rfl, serves_done rfl hserve⟩
  | physRead => exact physRead_serves hk hcode
  | physWrite => exact physWrite_serves hk hcode

end

/-! ### Runs -/

section

variable {mm : Machine} {k : Kernel Process}

omit [DecidableEq Process] in
theorem Kernel.Ready.congr (hk : k.Ready mm) {k' : Kernel Process} (h : k'.cache = k.cache) :
    k'.Ready mm := ⟨h ▸ hk.created, h ▸ hk.serves, h ▸ hk.header⟩

theorem run_cons {c : ControlCall Process} {calls : List (ControlCall Process)}
    {k₁ k₂ : Kernel Process} {r : Reply} {rs : List Reply}
    (h : k.control mm c.map c.current c.irp (Ioctl.ofCode c.code) = some (k₁, r))
    (hrest : k₁.run mm calls = some (k₂, rs)) : k.run mm (c :: calls) = some (k₂, r :: rs) := by
  rw [Kernel.run, h]
  dsimp only [Option.bind_eq_bind, Option.bind_some]
  rw [hrest]
  rfl

/-- The dispatcher and the panel give the same answers and end alike, on every run of requests.  The
panel has only seen the input of a request. -/
theorem control_refines (hk : k.Ready mm) (calls : List (ControlCall Process)) :
    ∃ k' rs, k.run mm calls = some (k', rs) ∧ k'.cache = k.cache ∧
      (k'.panel mm, rs.map Reply.answer) = (k.panel mm).run (calls.map ControlCall.ask) := by
  induction calls generalizing k with
  | nil => exact ⟨k, [], rfl, rfl, rfl⟩
  | cons c calls ih =>
    obtain ⟨k₁, r, hcontrol, hr⟩ := control_serves hk c
    obtain ⟨k₂, rs, hrun, hcache, hpanel⟩ := ih (hk.congr hr.cache)
    refine ⟨k₂, r :: rs, run_cons hcontrol hrun, hcache.trans hr.cache, ?_⟩
    rw [List.map_cons, List.map_cons, Panel.run, ← hr.panel]
    dsimp only
    rw [← hpanel]

def someKernel : Kernel Nat where
  mapping := ⟨true, 0x2000, 0x1000, none, none⟩
  cache := someRing
  captureActive := 0
  redirect := ⟨false, 0, false⟩
  mem := fun _ => 0

theorem someKernel_ready : someKernel.Ready someMachine :=
  ⟨someRing_created, someMachine_serves, by decide⟩

/-- A request of process 1 with no input, and a system buffer full of old bytes. -/
def bareCall (i : Ioctl) (outLen : UInt32) : ControlCall Nat where
  current := 1
  code := i.code
  irp :=
    { inputBufferLength := 0
      outputBufferLength := outLen
      systemBuffer := List.replicate outLen.toNat 0xCC
      buffered := by rw [List.length_replicate]; exact (Nat.zero_max _).symm }
  map := .address 0x10000

/-- Connects are to be sent to port 8888. -/
def redirectCall : ControlCall Nat where
  current := 2
  code := Ioctl.setRedirect.code
  irp :=
    { inputBufferLength := 8
      outputBufferLength := 0
      systemBuffer := [1, 0, 0, 0, 0xB8, 0x22, 0, 0]
      buffered := rfl }
  map := .address 0

/-- Statistics without room for them, and after the capture has been started; between them the ring
is mapped, and the redirection switched on by another process, which does not get the ring. -/
def startedStats : List (ControlCall Nat) :=
  [bareCall .getStats 8, bareCall .mapRing 24, redirectCall,
    { bareCall .mapRing 24 with current := 2 }, bareCall .startCapture 0, bareCall .getStats 56,
    bareCall .unmapRing 0]

theorem control_refines_startedStats : ∃ k' rs, someKernel.run someMachine startedStats =
      some (k', rs) ∧ k'.cache = someKernel.cache ∧
      (k'.panel someMachine, rs.map Reply.answer) =
        (someKernel.panel someMachine).run (startedStats.map ControlCall.ask) :=
  control_refines someKernel_ready startedStats

/-- The requests of a run that succeeded. -/
def succeeded (calls : List (ControlCall Process)) (rs : List Reply) : List (ControlCall Process) :=
  ((calls.zip rs).filter fun x => ntSuccess x.2.status).map Prod.fst

/-- A failed request might as well not have been made: without it the run ends in the same state, and
the others are answered the same.  No answer is longer than the caller has room for. -/
theorem failed_requests_vanish (hk : k.Ready mm) (calls : List (ControlCall Process)) :
    ∃ k' rs, k.run mm calls = some (k', rs) ∧
      k.run mm (succeeded calls rs) = some (k', rs.filter fun r => ntSuccess r.status) ∧
      ∀ x ∈ calls.zip rs, x.2.information ≤ x.1.irp.outputBufferLength.toNat ∧
        (ntSuccess x.2.status = false → x.2.output = []) := by
  induction calls generalizing k with
  | nil => exact ⟨k, [], rfl, rfl, nofun⟩
  | cons c calls ih =>
    obtain ⟨k₁, r, hcontrol, hr⟩ := control_serves hk c
    obtain ⟨k₂, rs, hrun, hkept, hroom⟩ := ih (hk.congr hr.cache)
    refine ⟨k₂, r :: rs, run_cons hcontrol hrun, ?_, ?_⟩
    · cases hstatus : ntSuccess r.status with
      | true =>
        simp only [succeeded, List.zip_cons_cons, List.filter_cons, hstatus, if_true, List.map_cons]
        exact run_cons hcontrol hkept
      | false =>
        obtain ⟨rfl, -⟩ := hr.failed hstatus
        simpa only [succeeded, List.zip_cons_cons, List.filter_cons, hstatus, Bool.false_eq_true,
          if_false] using hkept
    · rintro x hx
      rcases List.mem_cons.mp hx with rfl | hx
      · refine ⟨hr.room, fun hstatus => ?_⟩
        rw [Reply.output, (hr.failed hstatus).2, List.take_zero]
      · exact hroom x hx

end

theorem failed_requests_vanish_startedStats : ∃ k' rs,
    someKernel.run someMachine startedStats = some (k', rs) ∧
      someKernel.run someMachine (succeeded startedStats rs) =
        some (k', rs.filter fun r => ntSuccess r.status) ∧
      ∀ x ∈ startedStats.zip rs, x.2.information ≤ x.1.irp.outputBufferLength.toNat ∧
        (ntSuccess x.2.status = false → x.2.output = []) :=
  failed_requests_vanish someKernel_ready startedStats

end NetDebugger.Driver
