import NetDebugger.Http.RoundTrip
import NetDebugger.Http.Total

/-! A capture that ends in the body of a message.  Offsets into a body are those of its bytes as they
are sent, size lines included. -/

namespace NetDebugger.Http

open Lib

/-- The data in the first bytes of the chunks. -/
def capturedData : List Chunk → Nat → Bytes
  | [], _ => []
  | c :: cs, i => c.data.take (i - (c.line.length + 2)) ++ capturedData cs (i - c.bytes.length)

/-- The capture ends in the data of a chunk, with so many bytes of data in front of this chunk. -/
inductive EndsInData : List Chunk → Nat → Nat → Prop
  | here {c : Chunk} {cs : List Chunk} {j : Nat} (h : j < c.data.length) :
      EndsInData (c :: cs) (c.line.length + 2 + j) 0
  | later {c : Chunk} {cs : List Chunk} {i before : Nat} (h : EndsInData cs i before) :
      EndsInData (c :: cs) (c.bytes.length + i) (c.data.length + before)

/-- Behind a body of `stored` bytes, the loop ends without a mark: in the data of a chunk, or behind
the line of the last chunk. -/
def Unmarked (cs : List Chunk) (last : Chunk) (i stored : Nat) : Prop :=
  (∃ before, stored + before < kMaxBody ∧ EndsInData cs i before) ∨
    (cs.flatMap Chunk.bytes).length + (last.line.length + 2) ≤ i

/-! ### Places in the chunks -/

section places

variable {c last : Chunk} {cs : List Chunk} {i j stored : Nat}

theorem Chunk.bytes_length (c : Chunk) :
    c.bytes.length = c.line.length + 2 + c.data.length + 2 := by
  simp only [Chunk.bytes, List.length_append, crlf, List.length_cons, List.length_nil]
  omega

theorem Chunk.bytes_append (c : Chunk) (s : Bytes) :
    c.bytes ++ s = c.line ++ (crlf ++ (c.data ++ (crlf ++ s))) := by
  simp only [Chunk.bytes, List.append_assoc]

theorem chunksBytes_cons (c : Chunk) (cs : List Chunk) (last : Chunk) :
    chunksBytes (c :: cs) last = c.bytes ++ chunksBytes cs last := by
  rw [chunksBytes, List.flatMap_cons, List.append_assoc]
  rfl

/-- A capture that reaches the data of the first chunk. -/
theorem take_data (c : Chunk) (s : Bytes) (j : Nat) :
    (c.bytes ++ s).take (c.line.length + 2 + j) =
      c.line ++ (crlf ++ (c.data ++ (crlf ++ s)).take j) := by
  have hfront : c.line.length + 2 = (c.line ++ crlf).length := by
    rw [List.length_append]
    rfl
  rw [c.bytes_append, ← List.append_assoc, hfront, List.take_length_add_append, List.append_assoc]

@[simp]
theorem capturedData_zero (cs : List Chunk) : capturedData cs 0 = [] := by
  induction cs with
  | nil => rfl
  | cons c cs ih => simp [capturedData, ih]

theorem capturedData_line (hi : i < c.line.length + 2) : capturedData (c :: cs) i = [] := by
  have hlen := c.bytes_length
  rw [capturedData, Nat.sub_eq_zero_of_le (by omega), Nat.sub_eq_zero_of_le (by omega),
    capturedData_zero]
  rfl

theorem capturedData_inside (hj : j < c.data.length + 2) :
    capturedData (c :: cs) (c.line.length + 2 + j) = c.data.take j := by
  have hlen := c.bytes_length
  rw [capturedData, Nat.add_sub_cancel_left, Nat.sub_eq_zero_of_le (by omega), capturedData_zero,
    List.append_nil]

theorem capturedData_behind (c : Chunk) (cs : List Chunk) (i : Nat) :
    capturedData (c :: cs) (c.bytes.length + i) = c.data ++ capturedData cs i := by
  have hlen := c.bytes_length
  rw [capturedData, List.take_of_length_le (by omega), Nat.add_sub_cancel_left]

/-- All data is in front of the last chunk. -/
theorem capturedData_all (h : (cs.flatMap Chunk.bytes).length ≤ i) :
    capturedData cs i = cs.flatMap Chunk.data := by
  induction cs generalizing i with
  | nil => rfl
  | cons c cs ih =>
    rw [List.flatMap_cons, List.length_append] at h
    obtain ⟨i, rfl⟩ := Nat.exists_eq_add_of_le (Nat.le_of_add_right_le h)
    rw [capturedData_behind, ih (Nat.le_of_add_le_add_left h), List.flatMap_cons]

theorem endsInData_cons {before : Nat} :
    EndsInData (c :: cs) i before ↔
      (∃ j < c.data.length, i = c.line.length + 2 + j ∧ before = 0) ∨
      ∃ k b, i = c.bytes.length + k ∧ before = c.data.length + b ∧ EndsInData cs k b := by
  constructor
  · intro h
    cases h with
    | here h => exact .inl ⟨_, h, rfl, rfl⟩
    | later h => exact .inr ⟨_, _, rfl, rfl, h⟩
  · rintro (⟨j, hj, rfl, rfl⟩ | ⟨k, b, rfl, rfl, h⟩)
    · exact .here hj
    · exact .later h

/-- A capture that ends in the data of a chunk misses some of it. -/
theorem EndsInData.short {before : Nat} (h : EndsInData cs i before) :
    before ≤ (capturedData cs i).length ∧
      (capturedData cs i).length < (cs.flatMap Chunk.data).length := by
  induction h with
  | @here c cs j hj =>
    rw [capturedData_inside (by omega), List.flatMap_cons, List.length_append, List.length_take]
    omega
  | @later c cs i before h ih =>
    rw [capturedData_behind, List.flatMap_cons, List.length_append, List.length_append]
    omega

/-- Without a mark, the capture ends in the data of the first chunk or behind this chunk. -/
theorem unmarked_cons : Unmarked (c :: cs) last i stored ↔
    (∃ j < c.data.length, i = c.line.length + 2 + j ∧ stored < kMaxBody) ∨
      ∃ k, i = c.bytes.length + k ∧ Unmarked cs last k (stored + c.data.length) := by
  have hchunks : ((c :: cs).flatMap Chunk.bytes).length =
      c.bytes.length + (cs.flatMap Chunk.bytes).length := by
    rw [List.flatMap_cons, List.length_append]
  rw [Unmarked, hchunks]
  constructor
  · rintro (⟨before, hroom, hdata⟩ | hlast)
    · rcases endsInData_cons.mp hdata with ⟨j, hj, rfl, rfl⟩ | ⟨k, b, rfl, rfl, hlater⟩
      · exact .inl ⟨j, hj, rfl, hroom⟩
      · exact .inr ⟨k, rfl, .inl ⟨b, by omega, hlater⟩⟩
    · obtain ⟨k, rfl⟩ := Nat.exists_eq_add_of_le (show c.bytes.length ≤ i by omega)
      exact .inr ⟨k, rfl, .inr (by omega)⟩
  · rintro (⟨j, hj, rfl, hroom⟩ | ⟨k, rfl, ⟨b, hroom, hdata⟩ | hlast⟩)
    · exact .inl ⟨0, hroom, .here hj⟩
    · exact .inl ⟨c.data.length + b, by omega, .later hdata⟩
    · exact .inr (by omega)

theorem unmarked_line (hi : i < c.line.length + 2) : ¬Unmarked (c :: cs) last i stored := by
  have hlen := c.bytes_length
  intro h
  rcases unmarked_cons.mp h with ⟨j, -, rfl, -⟩ | ⟨k, rfl, -⟩ <;> omega

theorem unmarked_data (hj : j < c.data.length) :
    Unmarked (c :: cs) last (c.line.length + 2 + j) stored ↔ stored < kMaxBody := by
  have hlen := c.bytes_length
  constructor
  · intro h
    rcases unmarked_cons.mp h with ⟨k, -, -, hroom⟩ | ⟨k, heq, -⟩
    · exact hroom
    · omega
  · intro hroom
    exact unmarked_cons.mpr (.inl ⟨j, hj, rfl, hroom⟩)

/-- Between the data of a chunk and the next size line the loop finds no line. -/
theorem unmarked_separator (hj : j < 2) :
    ¬Unmarked (c :: cs) last (c.line.length + 2 + (c.data.length + j)) stored := by
  have hlen := c.bytes_length
  intro h
  rcases unmarked_cons.mp h with ⟨k, hk, heq, -⟩ | ⟨k, heq, -⟩ <;> omega

theorem unmarked_behind : Unmarked (c :: cs) last (c.bytes.length + i) stored ↔
    Unmarked cs last i (stored + c.data.length) := by
  have hlen := c.bytes_length
  constructor
  · intro h
    rcases unmarked_cons.mp h with ⟨j, hj, heq, -⟩ | ⟨k, heq, h⟩
    · omega
    · obtain rfl := Nat.add_left_cancel heq
      exact h
  · intro h
    exact unmarked_cons.mpr (.inr ⟨i, rfl, h⟩)

end places

/-! ### The loop at the cut -/

theorem findLine_front (pre s : Bytes) :
    findLine (pre ++ s) pre.length = (indexOf crlf s).map (· + pre.length) := by
  rw [findLine, List.drop_left]

/-- A line that is cut before its end is not found. -/
theorem findLine_take {line : Bytes} (hline : ∀ c ∈ line, InLine c) (pre s : Bytes) {i : Nat}
    (hi : i < line.length + 2) :
    findLine (pre ++ (line ++ (crlf ++ s)).take i) pre.length = none := by
  have hnot : (0x0D : UInt8) ∉ line := fun hmem => (hline _ hmem).1 rfl
  have hnone : indexOf crlf ((line ++ (crlf ++ s)).take i) = none :=
    indexOf_take_line [0x0A] hnot s hi
  rw [findLine_front, hnone]
  rfl

theorem chunkLoop_missing {d : Bytes} {p : Nat} (h : findLine d p = none) (fuel : Nat) (body : Bytes)
    (truncated : Bool) : chunkLoop d (fuel + 1) p body truncated = some (d.length, body, true) := by
  unfold chunkLoop
  simp only [findCRLF_eq, h, Option.bind_eq_bind, Option.bind_some]

section line

variable {line : Bytes} (hline : ∀ c ∈ line, InLine c) (pre : Bytes) (fuel : Nat)

include hline

/-- The data of a chunk is cut: the rest of the buffer is stored. -/
theorem chunkLoop_cut {data : Bytes} (hsize : data.length < chunkSize line) (body : Bytes) :
    chunkLoop (pre ++ (line ++ (crlf ++ data))) (fuel + 1) pre.length (capped body).1
        (capped body).2 =
      some ((pre ++ (line ++ (crlf ++ data))).length, (body ++ data).take kMaxBody,
        decide (kMaxBody ≤ body.length ∨ kMaxBody < (body ++ data).length)) := by
  have hfind := findCRLF_line hline pre data
  have hread := slice_front pre line (crlf ++ data)
  have hlen : (pre ++ (line ++ (crlf ++ data))).length =
      pre.length + line.length + 2 + data.length := by
    rw [← length_line, ← List.length_append, List.append_assoc, List.append_assoc]
  have hstore : appendCapped (pre ++ (line ++ (crlf ++ data))) (pre.length + line.length + 2)
      data.length (capped body).1 (capped body).2 = some ((body ++ data).take kMaxBody,
        decide (kMaxBody ≤ body.length ∨ kMaxBody < (body ++ data).length)) := by
    have hpiece := appendCapped_piece body data (pre ++ (line ++ crlf)) []
    rw [← length_line]
    simpa only [List.append_assoc, List.append_nil] using hpiece
  unfold chunkLoop
  simp only [hfind, hread, Option.bind_eq_bind, Option.bind_some]
  rw [if_neg (by omega), if_pos (by omega), hlen, Nat.add_sub_cancel_left, hstore]
  rfl

/-- The line behind the last chunk is cut: the message ends with the buffer. -/
theorem chunkLoop_lastCut (hsize : chunkSize line = 0) {s : Bytes} (hs : indexOf crlf s = none)
    (body : Bytes) (truncated : Bool) :
    chunkLoop (pre ++ (line ++ (crlf ++ s))) (fuel + 1) pre.length body truncated =
      some ((pre ++ (line ++ (crlf ++ s))).length, body, truncated) := by
  have hfind := findCRLF_line hline pre s
  have hread := slice_front pre line (crlf ++ s)
  have hnext : findLine (pre ++ (line ++ (crlf ++ s))) (pre.length + line.length + 2) = none := by
    have hnone := findLine_front (pre ++ (line ++ crlf)) s
    rw [hs, length_line] at hnone
    simpa only [List.append_assoc, Option.map_none] using hnone
  unfold chunkLoop
  simp only [hfind, hread, Option.bind_eq_bind, Option.bind_some, hsize, if_true,
    findCRLF_eq, hnext]

end line

/-- The last chunk, cut anywhere: the mark is set when its line is cut. -/
theorem chunkLoop_lastTake {last : Chunk} (hlast : last.Ok) (hempty : last.data = []) (pre : Bytes)
    (i fuel : Nat) (body : Bytes) (truncated : Bool) :
    chunkLoop (pre ++ last.bytes.take i) (fuel + 1) pre.length body truncated =
      some ((pre ++ last.bytes.take i).length, body,
        if i < last.line.length + 2 then true else truncated) := by
  have hbytes : last.bytes = last.line ++ (crlf ++ crlf) := by
    rw [Chunk.bytes, hempty, List.nil_append]
  have hsize : chunkSize last.line = 0 := by
    rw [chunkSize_line hlast, hempty]
    rfl
  by_cases hi : i < last.line.length + 2
  · have hnone := findLine_take hlast.line.inLine pre crlf hi
    rw [hbytes, if_pos hi, chunkLoop_missing hnone]
  · obtain ⟨j, rfl⟩ := Nat.exists_eq_add_of_le (Nat.le_of_not_lt hi)
    have htake := take_data last [] j
    rw [List.append_nil, List.append_nil, hempty, List.nil_append] at htake
    rw [if_neg hi, htake]
    by_cases hj : j < 2
    · exact chunkLoop_lastCut hlast.line.inLine pre fuel hsize
        (indexOf_take_line [0x0A] (List.not_mem_nil) [] hj) body truncated
    · have hwhole : crlf.take j = crlf := List.take_of_length_le (Nat.le_of_not_lt hj)
      have hend := @chunkLoop_last _ hlast.line.inLine pre [] fuel hsize [] (by simp) body truncated
      simpa only [hwhole, List.nil_append, List.append_nil] using hend

/-- Behind a body, the loop ends with the capture and stores the data in it up to the cap. -/
def StoresTake (cs : List Chunk) (last : Chunk) (pre : Bytes) (i fuel : Nat) (body : Bytes) : Prop :=
  ∃ t, chunkLoop (pre ++ (chunksBytes cs last).take i) fuel pre.length (capped body).1
        (capped body).2 =
      some ((pre ++ (chunksBytes cs last).take i).length,
        (body ++ capturedData cs i).take kMaxBody, t) ∧
    ((body ++ capturedData cs i).length ≤ kMaxBody → (t = false ↔ Unmarked cs last i body.length))

theorem storesTake_last {last : Chunk} (hlast : last.Ok) (hempty : last.data = []) (pre : Bytes)
    (i fuel : Nat) (body : Bytes) : StoresTake [] last pre i (fuel + 1) body := by
  refine ⟨_, chunkLoop_lastTake hlast hempty pre i fuel (capped body).1 (capped body).2 |>.trans
    (by rw [capturedData, List.append_nil]; rfl), ?_⟩
  intro hsmall
  rw [capturedData, List.append_nil] at hsmall
  have hfalse : (capped body).2 = false := decide_eq_false (Nat.not_lt.mpr hsmall)
  have hdata : ¬∃ before, body.length + before < kMaxBody ∧ EndsInData [] i before := by
    rintro ⟨before, -, h⟩
    cases h
  rw [Unmarked, or_iff_right hdata, List.flatMap_nil, List.length_nil, Nat.zero_add, hfalse]
  by_cases hi : i < last.line.length + 2
  · rw [if_pos hi]
    exact iff_of_false Bool.noConfusion (Nat.not_le.mpr hi)
  · rw [if_neg hi]
    exact iff_of_true rfl (Nat.le_of_not_lt hi)

section chunk

variable {c : Chunk} (hc : c.Ok) (cs : List Chunk) (last : Chunk) (pre : Bytes) (fuel : Nat)
  (body : Bytes)

include hc

/-- The capture ends in a size line. -/
theorem storesTake_line {i : Nat} (hi : i < c.line.length + 2) :
    StoresTake (c :: cs) last pre i (fuel + 1) body := by
  refine ⟨true, ?_, fun _ => iff_of_false Bool.noConfusion (unmarked_line hi)⟩
  have hnone := findLine_take hc.line.inLine pre (c.data ++ (crlf ++ chunksBytes cs last)) hi
  rw [← c.bytes_append] at hnone
  rw [chunksBytes_cons, chunkLoop_missing hnone, capturedData_line hi, List.append_nil]
  rfl

variable (hsize : chunkSize c.line = c.data.length)

include hsize

/-- The capture ends in the data of a chunk. -/
theorem storesTake_data {j : Nat} (hj : j < c.data.length) :
    StoresTake (c :: cs) last pre (c.line.length + 2 + j) (fuel + 1) body := by
  have hcut : (c.data ++ (crlf ++ chunksBytes cs last)).take j = c.data.take j :=
    List.take_append_of_le_length (Nat.le_of_lt hj)
  have hshort : (c.data.take j).length < chunkSize c.line := by
    rw [hsize, List.length_take]
    omega
  unfold StoresTake
  rw [chunksBytes_cons, take_data, hcut, capturedData_inside (by omega)]
  refine ⟨_, chunkLoop_cut hc.line.inLine pre fuel hshort body, ?_⟩
  intro hsmall
  rw [unmarked_data hj, decide_eq_false_iff_not]
  omega

variable (hne : c.data ≠ [])

include hne

/-- The capture ends in front of the next size line. -/
theorem storesTake_separator {j : Nat} (hj : j < 2) :
    StoresTake (c :: cs) last pre (c.line.length + 2 + (c.data.length + j)) (fuel + 2) body := by
  refine ⟨true, ?_, fun _ => iff_of_false Bool.noConfusion (unmarked_separator hj)⟩
  have hstep := chunkLoop_data hc.line.inLine pre ((crlf ++ chunksBytes cs last).take j) (fuel + 1)
    hsize hne body
  have hno : ¬crlf <+: (crlf ++ chunksBytes cs last).take j := by
    intro hpre
    have hle := Nat.le_trans hpre.length_le (List.length_take_le ..)
    exact Nat.not_le.mpr hj hle
  have hnone := @findLine_take [] (by simp) (pre ++ (c.line ++ (crlf ++ c.data)))
    (chunksBytes cs last) j hj
  rw [List.nil_append] at hnone
  simp only [List.append_assoc] at hnone
  simp only [if_neg hno, Nat.add_zero, chunkLoop_missing hnone] at hstep
  rw [chunksBytes_cons, take_data, List.take_length_add_append, hstep,
    capturedData_inside (by omega), List.take_of_length_le (Nat.le_add_right ..)]
  rfl

/-- The capture reaches behind a chunk. -/
theorem storesTake_behind {i : Nat} (h : StoresTake cs last (pre ++ c.bytes) i fuel (body ++ c.data)) :
    StoresTake (c :: cs) last pre (c.bytes.length + i) (fuel + 1) body := by
  obtain ⟨t, hloop, hmark⟩ := h
  have hstep := chunkLoop_data hc.line.inLine pre (crlf ++ (chunksBytes cs last).take i) fuel
    hsize hne body
  have hlen : (pre ++ (c.line ++ (crlf ++ c.data))).length + 2 = (pre ++ c.bytes).length := by
    simp only [Chunk.bytes, List.length_append, crlf, List.length_cons, List.length_nil]
    omega
  rw [if_pos (List.prefix_append ..), hlen, ← c.bytes_append] at hstep
  rw [List.append_assoc] at hloop
  refine ⟨t, ?_, ?_⟩
  · rw [chunksBytes_cons, List.take_length_add_append, hstep, hloop, capturedData_behind,
      List.append_assoc]
  · intro hsmall
    rw [capturedData_behind, ← List.append_assoc] at hsmall
    rw [unmarked_behind, hmark hsmall, List.length_append]

end chunk

/-- The loop on a capture that ends anywhere in the chunks. -/
theorem storesTake {cs : List Chunk} (hcs : ∀ c ∈ cs, c.Ok ∧ c.data ≠ [])
    (hsizes : ∀ c ∈ cs, c.data.length < 2 ^ 32) {last : Chunk} (hlast : last.Ok)
    (hempty : last.data = []) (pre : Bytes) (i : Nat) {fuel : Nat}
    (hfuel : ((chunksBytes cs last).take i).length < fuel) (body : Bytes) :
    StoresTake cs last pre i fuel body := by
  induction cs generalizing pre i fuel body with
  | nil =>
    obtain ⟨fuel, rfl⟩ := Nat.exists_eq_succ_of_ne_zero (Nat.ne_of_gt (Nat.zero_lt_of_lt hfuel))
    exact storesTake_last hlast hempty pre i fuel body
  | cons c cs ih =>
    obtain ⟨fuel, rfl⟩ := Nat.exists_eq_succ_of_ne_zero (Nat.ne_of_gt (Nat.zero_lt_of_lt hfuel))
    obtain ⟨hc, hne⟩ := hcs c (List.mem_cons_self ..)
    have hlen := c.bytes_length
    have hsize : chunkSize c.line = c.data.length := by
      have hlt := hsizes c (List.mem_cons_self ..)
      rw [chunkSize_line hc]
      exact Nat.min_eq_left (by omega)
    rcases Nat.lt_or_ge i (c.line.length + 2) with hi | hi
    · exact storesTake_line hc cs last pre fuel body hi
    obtain ⟨j, rfl⟩ := Nat.exists_eq_add_of_le hi
    rcases Nat.lt_or_ge j c.data.length with hj | hj
    · exact storesTake_data hc cs last pre fuel body hsize hj
    obtain ⟨k, rfl⟩ := Nat.exists_eq_add_of_le hj
    rcases Nat.lt_or_ge k 2 with hk | hk
    · rw [chunksBytes_cons, take_data, List.take_length_add_append] at hfuel
      simp only [List.length_append] at hfuel
      have hpos := List.length_pos_of_ne_nil hne
      obtain ⟨fuel, rfl⟩ := Nat.exists_eq_succ_of_ne_zero (show fuel ≠ 0 by omega)
      exact storesTake_separator hc cs last pre fuel body hsize hne hk
    · obtain ⟨i, rfl⟩ := Nat.exists_eq_add_of_le hk
      have hplace : c.line.length + 2 + (c.data.length + (2 + i)) = c.bytes.length + i := by omega
      rw [hplace] at hfuel ⊢
      rw [chunksBytes_cons, List.take_length_add_append, List.length_append] at hfuel
      apply storesTake_behind hc cs last pre fuel body hsize hne
      apply ih (fun k hk => hcs k (List.mem_cons_of_mem _ hk))
        (fun k hk => hsizes k (List.mem_cons_of_mem _ hk))
      omega

/-! ### What is told about the body -/

namespace Content

/-- The body bytes in the first bytes of the payload. -/
def captured : Content → Nat → Bytes
  | absent, _ => []
  | sized _ body, i => body.take i
  | chunked _ chunks _, i => capturedData chunks i

/-- Chunks with more data than is stored, or cut in the data of one while there was room. -/
def Hidden : Content → Nat → Prop
  | chunked _ chunks _, i =>
    kMaxBody < (capturedData chunks i).length ∨ ∃ before < kMaxBody, EndsInData chunks i before
  | _, _ => False

/-- What is told about a payload of which the first bytes are captured. -/
structure Honest (c : Content) (i bytes : Nat) (truncated : Bool) : Prop where
  bytes : bytes = (c.captured i).length
  missing : (c.captured i).take kMaxBody ≠ c.body → truncated = true
  whole : c.payload.length ≤ i → c.body.length ≤ kMaxBody → truncated = false

theorem honest_absent (i : Nat) : Honest absent i 0 false :=
  ⟨rfl, fun hne => absurd rfl hne, fun _ _ => rfl⟩

theorem honest_sized (field : Field) (body : Bytes) (i : Nat) :
    Honest (sized field body) i (body.take i).length
      ((capped (body.take i)).2 || decide ((body.take i).length < body.length)) where
  bytes := rfl
  missing := by
    intro hne
    by_contra hflag
    rw [Bool.or_eq_true, capped, decide_eq_true_eq, decide_eq_true_eq, not_or, Nat.not_lt,
      Nat.not_lt] at hflag
    obtain ⟨hcap, hall⟩ := hflag
    apply hne
    rw [captured, List.take_of_length_le hcap]
    rw [List.length_take] at hall
    exact List.take_of_length_le (by omega)
  whole := by
    intro hi hcap
    have hall : body.take i = body := List.take_of_length_le hi
    rw [hall, capped, Bool.or_eq_false_iff, decide_eq_false_iff_not,
      decide_eq_false_iff_not]
    exact ⟨Nat.not_lt.mpr hcap, Nat.lt_irrefl _⟩

/-- With chunks the length of what is stored is told, and the mark of the loop. -/
theorem honest_chunked {field : Field} {chunks : List Chunk} {last : Chunk} {i : Nat} {t : Bool}
    (hmark : (capturedData chunks i).length ≤ kMaxBody → (t = false ↔ Unmarked chunks last i 0)) :
    Honest (chunked field chunks last) i ((capturedData chunks i).take kMaxBody).length t ↔
      ¬Hidden (chunked field chunks last) i := by
  constructor
  · rintro ⟨hbytes, hmissing, -⟩
    have hcap : (capturedData chunks i).length ≤ kMaxBody := by
      rw [captured, List.length_take] at hbytes
      omega
    rintro (hmore | ⟨before, hroom, hdata⟩)
    · exact Nat.not_le.mpr hmore hcap
    · have hshort := hdata.short.2
      have hquiet : t = false := (hmark hcap).mpr (.inl ⟨before, by omega, hdata⟩)
      have hloud : t = true := by
        apply hmissing
        rw [captured, List.take_of_length_le hcap]
        exact fun heq => Nat.ne_of_lt hshort (congrArg List.length heq)
      exact Bool.noConfusion (hquiet.symm.trans hloud)
  · intro hshown
    obtain ⟨hmore, hdata⟩ := not_or.mp hshown
    have hcap := Nat.le_of_not_lt hmore
    have hstored := List.take_of_length_le hcap
    refine ⟨congrArg List.length hstored, ?_, ?_⟩
    · intro hne
      by_contra hflag
      rcases (hmark hcap).mp (Bool.eq_false_iff.mpr hflag) with ⟨before, hroom, hin⟩ | hlast
      · exact hdata ⟨before, by omega, hin⟩
      · rw [captured, hstored, capturedData_all (by omega)] at hne
        exact hne rfl
    · intro hi _
      refine (hmark hcap).mpr (.inr ?_)
      have hlen := last.bytes_length
      rw [payload, chunksBytes, List.length_append] at hi
      omega

/-- The body of a message that is cut, or not. -/
theorem parseBody_take {c : Content} (h : c.Ok) {asResponse : Bool}
    (habsent : c = absent → asResponse = false)
    (hsizes : ∀ k ∈ c.chunks, k.data.length < 2 ^ 32) {m : HttpMessage}
    (hlength : httpFindHeader m.headers (text "Content-Length") = c.lengthHeader)
    (hchunked : m.chunked = (c.fields.map Field.header).any HttpHeader.isChunked)
    (hbody : m.body = []) (htruncated : m.bodyTruncated = false) (pre : Bytes) (i : Nat) :
    ∃ n t, parseBody (pre ++ c.payload.take i) pre.length asResponse m =
        some ({ m with
          body := (c.captured i).take kMaxBody, bodyTruncated := t, bodyBytes := n },
          (pre ++ c.payload.take i).length) ∧
      (c.Honest i n t ↔ ¬c.Hidden i) := by
  cases h with
  | absent =>
    obtain rfl := habsent rfl
    refine ⟨0, false, ?_, iff_of_true (honest_absent i) id⟩
    have hfalse : m.chunked = false := hchunked
    have hnone : httpFindHeader m.headers (text "Content-Length") = none := hlength
    simp [parseBody, hfalse, hnone, payload, captured, hbody, htruncated]
  | @sized field body field_ok name value small =>
    refine ⟨_, _, ?_, iff_of_true (honest_sized field body i) id⟩
    have hfalse : m.chunked = false := hchunked.trans (isChunked_sized name body)
    have hsome := hlength.trans (lengthHeader_sized name body)
    have hlen := strtoul_sized value small
    have hstore := appendCapped_nil pre (body.take i) []
    rw [List.append_nil] at hstore
    have havail : min body.length ((pre ++ body.take i).length - pre.length) =
        (body.take i).length := by
      rw [List.length_append, List.length_take]
      omega
    unfold parseBody
    simp only [hfalse, hsome, hlen, hbody, htruncated, payload, havail, hstore, captured,
      Bool.false_eq_true, if_false, Option.bind_eq_bind, Option.bind_some]
    rw [List.length_append]
    rfl
  | @chunked field chunks last field_ok name value chunks_ok last_ok last_empty =>
    have htrue : m.chunked = true := hchunked.trans (isChunked_chunked name value chunks last)
    have hfuel : ((chunksBytes chunks last).take i).length <
        (pre ++ (chunksBytes chunks last).take i).length + 1 := by
      rw [List.length_append]
      omega
    obtain ⟨t, hloop, hmark⟩ := storesTake chunks_ok hsizes last_ok last_empty pre i hfuel []
    refine ⟨_, t, ?_, honest_chunked hmark⟩
    unfold parseBody
    simp only [htrue, hbody, htruncated, payload, if_true]
    rw [capped_nil] at hloop
    rw [hloop]
    rfl

end Content

namespace Message

/-- The message is returned with what was captured of its body. -/
structure Reported (m : Message) (i : Nat) (p : HttpMessage) : Prop where
  valid : p.valid = true
  start : m.start.Shown p
  headers : p.headers = m.block.headers
  body : p.body = (m.content.captured i).take kMaxBody
  honest : m.content.Honest i p.bodyBytes p.bodyTruncated

theorem chunks32 {m : Message} (h : m.body.length < 2 ^ 32) : m.Chunks32 := by
  intro c hc
  refine Nat.lt_of_le_of_lt ?_ h
  unfold Message.body
  cases hcontent : m.content with
  | absent => simp [hcontent, Content.chunks] at hc
  | sized field body => simp [hcontent, Content.chunks] at hc
  | chunked field chunks last =>
    rw [hcontent] at hc
    obtain ⟨front, rest, hchunks⟩ := List.append_of_mem hc
    change chunks = front ++ c :: rest at hchunks
    rw [Content.body, hchunks, List.flatMap_append, List.flatMap_cons, List.length_append,
      List.length_append]
    omega

/-- A capture that ends in a body gives one message. -/
theorem httpParse_take {m : Message} {asResponse : Bool} (h : m.Ok asResponse)
    (hsmall : m.body.length < 2 ^ 32) (i : Nat) :
    ∃ p, httpParse (m.bytes.take (m.block.bytes.length + i)) asResponse = some [p] ∧
      (m.Reported i p ↔ ¬m.content.Hidden i) := by
  have hstored := h.block.stored
  obtain ⟨n, t, hbody, hhonest⟩ := Content.parseBody_take h.content h.framed (chunks32 hsmall)
    h.lengthHeader h.isChunked hstored.body hstored.truncated m.block.bytes i
  have hpos := h.block.bytes_pos
  have hend : Reads (m.block.bytes ++ m.content.payload.take i) asResponse
      (m.block.bytes ++ m.content.payload.take i).length [] :=
    .done (Nat.le_refl _) (by rw [List.drop_length]; exact fun c hc => nomatch hc)
  have hreads := @Reads.block _ _ h.block [] _ _ _ _ (by simpa using hbody)
    (show 0 < _ by rw [List.length_append]; omega) hend
  rw [bytes, List.take_length_add_append]
  refine ⟨_, httpParse_reads hreads (show 1 ≤ kMaxMessages by decide), ?_⟩
  rw [← hhonest]
  exact ⟨Reported.honest, fun hh => ⟨rfl, hstored.start.done .., hstored.headers, rfl, hh⟩⟩

/-- What is told does not depend on the framing, for bodies that are whole or miss something. -/
theorem Reported.framing {m m' : Message} {i i' : Nat} {p p' : HttpMessage} (h : m.Reported i p)
    (h' : m'.Reported i' p') (hbody : m.body = m'.body)
    (hcaptured : m.content.captured i = m'.content.captured i')
    (hcut : (m.content.captured i).take kMaxBody ≠ m.body ∨
      m.content.payload.length ≤ i ∧ m'.content.payload.length ≤ i') :
    p.body = p'.body ∧ p.bodyBytes = p'.bodyBytes ∧ p.bodyTruncated = p'.bodyTruncated := by
  refine ⟨by rw [h.body, h'.body, hcaptured], by rw [h.honest.bytes, h'.honest.bytes, hcaptured], ?_⟩
  by_cases hmissing : (m.content.captured i).take kMaxBody = m.body
  · obtain ⟨hi, hi'⟩ := or_iff_right (not_not.mpr hmissing) |>.mp hcut
    have hcap : m.body.length ≤ kMaxBody := by
      rw [← hmissing]
      exact List.length_take_le ..
    have hcap' : m'.body.length ≤ kMaxBody := hbody ▸ hcap
    rw [h.honest.whole hi hcap, h'.honest.whole hi' hcap']
  · rw [h.honest.missing hmissing,
      h'.honest.missing fun heq => hmissing (by rw [hcaptured, heq]; exact hbody.symm)]

end Message

/-- A message that is cut anywhere behind its head is reported honestly except where `Hidden` says. -/
theorem reported_iff {m : Message} {asResponse : Bool} (h : m.Ok asResponse)
    (hsmall : m.body.length < 2 ^ 32) (i : Nat) :
    (∃ p, httpParse (m.bytes.take (m.block.bytes.length + i)) asResponse = some [p] ∧
      m.Reported i p) ↔ ¬m.content.Hidden i := by
  obtain ⟨p, hparse, hreported⟩ := Message.httpParse_take h hsmall i
  rw [← hreported]
  constructor
  · rintro ⟨q, hq, hr⟩
    rw [hparse] at hq
    obtain rfl := List.singleton_inj.mp (Option.some.inj hq)
    exact hr
  · intro hr
    exact ⟨p, hparse, hr⟩

/-- A response in one chunk, cut behind the first byte of the data, and cut in the size line. -/
theorem reported_iff_abc :
    ((∃ p, httpParse ((chunkedResponse [abcChunk]).bytes.take
          ((chunkedResponse [abcChunk]).block.bytes.length + 8)) true = some [p] ∧
        (chunkedResponse [abcChunk]).Reported 8 p) ↔
      ¬(chunkedResponse [abcChunk]).content.Hidden 8) ∧
    ∃ p, httpParse ((chunkedResponse [abcChunk]).bytes.take
          ((chunkedResponse [abcChunk]).block.bytes.length + 3)) true = some [p] ∧
        (chunkedResponse [abcChunk]).Reported 3 p := by
  have hok : (chunkedResponse [abcChunk]).Ok true :=
    chunkedResponse_ok (by simpa using ⟨abcChunk_ok, by decide⟩)
  have hseen : ¬(chunkedResponse [abcChunk]).content.Hidden 3 := by
    rintro (hmore | ⟨before, -, hdata⟩)
    · exact absurd hmore (by decide)
    · have hline : abcChunk.line.length = 5 := by decide
      have hbytes := abcChunk.bytes_length
      obtain ⟨j, -, hj, -⟩ | ⟨k, b, hk, -⟩ := endsInData_cons.mp hdata <;> omega
  exact ⟨reported_iff hok (by decide) 8, (reported_iff hok (by decide) 3).mpr hseen⟩

/-- The two missing bytes are not told. -/
theorem reported_not_always :
    (chunkedResponse [abcChunk]).Ok true ∧ (chunkedResponse [abcChunk]).body.length < 2 ^ 32 ∧
    ¬∃ p, httpParse ((chunkedResponse [abcChunk]).bytes.take
        ((chunkedResponse [abcChunk]).block.bytes.length + 8)) true = some [p] ∧
      (chunkedResponse [abcChunk]).Reported 8 p := by
  refine ⟨chunkedResponse_ok (by simpa using ⟨abcChunk_ok, by decide⟩), by decide, ?_⟩
  rintro ⟨p, hparse, hreported⟩
  have hflag : (httpParse ((chunkedResponse [abcChunk]).bytes.take
      ((chunkedResponse [abcChunk]).block.bytes.length + 8)) true).map
        (List.map HttpMessage.bodyTruncated) = some [false] := by
    decide +kernel
  rw [hparse] at hflag
  have hfalse : p.bodyTruncated = false := List.singleton_inj.mp (Option.some.inj hflag)
  have htrue := hreported.honest.missing (by decide)
  exact Bool.noConfusion (hfalse.symm.trans htrue)

end NetDebugger.Http
