import NetDebugger.Http.Growth
import NetDebugger.Http.Trailers

/-! Streams in which messages with bodies come one after the other, with something else behind them or
an empty line in between. -/

namespace NetDebugger.Http

open Lib

theorem Message.Ok.bytes_pos {m : Message} {asResponse : Bool} (h : m.Ok asResponse) :
    0 < m.bytes.length := by
  rw [Message.bytes, List.length_append]
  exact Nat.add_pos_left h.block.bytes_pos _

/-- A round of the loop at a message: it is read, and the next round starts behind it. -/
theorem httpParseLoop_sent {m : Message} {asResponse : Bool} (h : m.Ok asResponse)
    (hsizes : m.Chunks32) (pre rest : Bytes) {out : List HttpMessage}
    (hroom : out.length < kMaxMessages) (fuel : Nat) :
    ∃ p, m.Shown p ∧ httpParseLoop (pre ++ (m.bytes ++ rest)) asResponse (fuel + 1) pre.length out =
      httpParseLoop (pre ++ m.bytes ++ rest) asResponse fuel (pre ++ m.bytes).length (out ++ [p]) := by
  obtain ⟨q, hbody, hshown⟩ := parseBody_sent h hsizes pre rest
  obtain ⟨q', stop, hbody', -, hround⟩ :=
    httpParseLoop_block h.block pre (m.content.payload ++ rest) hroom fuel
  rw [hbody] at hbody'
  obtain ⟨rfl, rfl⟩ := Prod.mk.inj (Option.some.inj hbody')
  have hwhole : pre ++ (m.bytes ++ rest) =
      pre ++ (m.block.bytes ++ (m.content.payload ++ rest)) := by
    simp only [Message.bytes, List.append_assoc]
  have hpieces : pre ++ m.bytes ++ rest = pre ++ (m.bytes ++ rest) := List.append_assoc ..
  refine ⟨q.done (pre ++ m.bytes).length, hshown, ?_⟩
  rw [hpieces, hwhole, hround]

/-- Behind messages with bodies, the parser returns a message for the next head. -/
theorem httpParseLoop_behind {ms : List Message} (hms : ∀ m ∈ ms, m.Ok true ∧ m.Chunks32)
    {b : Block} (hb : b.Ok true) (pre rest : Bytes) {fuel : Nat} {out : List HttpMessage}
    (hfuel : (pre ++ (ms.flatMap Message.bytes ++ (b.bytes ++ rest))).length < fuel + pre.length)
    (hroom : out.length + ms.length < kMaxMessages) :
    ∃ ps q more, ps.length = ms.length ∧ b.start.Shown q ∧
      httpParseLoop (pre ++ (ms.flatMap Message.bytes ++ (b.bytes ++ rest))) true fuel pre.length
        out = some (out ++ (ps ++ q :: more)) := by
  induction ms generalizing pre fuel out with
  | nil =>
    rw [List.flatMap_nil, List.nil_append] at hfuel ⊢
    have hpos := hb.bytes_pos
    simp only [List.length_append] at hfuel
    obtain ⟨fuel, rfl⟩ := Nat.exists_eq_succ_of_ne_zero (show fuel ≠ 0 by omega)
    obtain ⟨q, stop, -, hq, hround⟩ := httpParseLoop_block hb pre rest (by simpa using hroom) fuel
    have hlow := hq.low
    obtain ⟨body, t, n, hhead⟩ := hq.head
    have hshown : b.start.Shown (q.done stop) := by
      rw [hhead]
      exact hb.stored.start.done ..
    obtain ⟨more, hmore, -⟩ := httpParseLoop_total hq.high
      (show _ < fuel + stop by simp only [List.length_append]; omega) (out ++ [q.done stop])
    refine ⟨[], q.done stop, more, rfl, hshown, ?_⟩
    rw [hround, hmore, List.append_assoc]
    rfl
  | cons m ms ih =>
    obtain ⟨hm, hsizes⟩ := hms m (List.mem_cons_self ..)
    have hpos := hm.bytes_pos
    rw [List.flatMap_cons, List.append_assoc] at hfuel ⊢
    rw [List.length_cons] at hroom
    simp only [List.length_append] at hfuel
    obtain ⟨fuel, rfl⟩ := Nat.exists_eq_succ_of_ne_zero (show fuel ≠ 0 by omega)
    obtain ⟨p, -, hround⟩ := httpParseLoop_sent hm hsizes pre
      (ms.flatMap Message.bytes ++ (b.bytes ++ rest)) (show out.length < kMaxMessages by omega) fuel
    obtain ⟨ps, q, more, hcount, hshown, hloop⟩ := @ih
      (fun k hk => hms k (List.mem_cons_of_mem _ hk)) (pre ++ m.bytes) fuel (out ++ [p])
      (by simp only [List.length_append]; omega)
      (by simp only [List.length_append, List.length_singleton]; omega)
    refine ⟨p :: ps, q, more, congrArg (· + 1) hcount, hshown, ?_⟩
    rw [hround, hloop, List.append_assoc]
    rfl

theorem httpParse_behind {ms : List Message} (hms : ∀ m ∈ ms, m.Ok true ∧ m.Chunks32)
    {b : Block} (hb : b.Ok true) (rest : Bytes) (hroom : ms.length < kMaxMessages)
    {ps : List HttpMessage}
    (hparse : httpParse (ms.flatMap Message.bytes ++ (b.bytes ++ rest)) true = some ps) :
    ∃ q, ps[ms.length]? = some q ∧ b.start.Shown q := by
  have hpos := hb.bytes_pos
  have hne : ms.flatMap Message.bytes ++ (b.bytes ++ rest) ≠ [] := by
    refine List.ne_nil_of_length_pos ?_
    simp only [List.length_append]
    omega
  obtain ⟨qs, q, more, hcount, hshown, hloop⟩ := @httpParseLoop_behind ms hms b hb [] rest
    ((ms.flatMap Message.bytes ++ (b.bytes ++ rest)).length + 1) []
    (Nat.lt_succ_self _) (by simpa using hroom)
  rw [httpParse, if_neg hne] at hparse
  have heq := Option.some.inj (hparse.symm.trans hloop)
  refine ⟨q, ?_, hshown⟩
  rw [heq, List.nil_append, ← hcount, List.getElem?_append_right (Nat.le_refl _), Nat.sub_self]
  rfl

/-- A message again and again, with at most an empty line in between. -/
theorem httpParseLoop_repeated {m : Message} {asResponse : Bool} (hm : m.Ok asResponse)
    (hsizes : m.Chunks32) {gap : Bytes} (hgap : gap = [] ∨ gap = crlf) (n : Nat) (pre : Bytes)
    {fuel : Nat} {out : List HttpMessage}
    (hfuel : (pre ++ (List.replicate n (m.bytes ++ gap)).flatten).length < fuel + pre.length)
    (hroom : out.length + n ≤ kMaxMessages) :
    ∃ ps, ps.length = n ∧ (∀ p ∈ ps, m.Shown p) ∧
      httpParseLoop (pre ++ (List.replicate n (m.bytes ++ gap)).flatten) asResponse fuel pre.length
        out = some (out ++ ps) := by
  induction n generalizing pre fuel out with
  | zero =>
    rw [List.replicate_zero, List.flatten_nil, List.append_nil] at hfuel ⊢
    obtain ⟨fuel, rfl⟩ := Nat.exists_eq_succ_of_ne_zero (show fuel ≠ 0 by omega)
    exact ⟨[], rfl, List.forall_mem_nil _, by rw [httpParseLoop_end, List.append_nil]⟩
  | succ n ih =>
    have hpos := hm.bytes_pos
    rw [List.replicate_succ, List.flatten_cons, List.append_assoc] at hfuel ⊢
    generalize htail : (List.replicate n (m.bytes ++ gap)).flatten = tail at *
    simp only [List.length_append] at hfuel
    obtain ⟨fuel, rfl⟩ := Nat.exists_eq_succ_of_ne_zero (show fuel ≠ 0 by omega)
    obtain ⟨p, hshown, hround⟩ := httpParseLoop_sent hm hsizes pre (gap ++ tail)
      (show out.length < kMaxMessages by omega) fuel
    have hskip : httpParseLoop (pre ++ m.bytes ++ (gap ++ tail)) asResponse fuel
        (pre ++ m.bytes).length (out ++ [p]) =
        httpParseLoop (pre ++ m.bytes ++ gap ++ tail) asResponse fuel (pre ++ m.bytes ++ gap).length
          (out ++ [p]) := by
      rcases hgap with rfl | rfl
      · simp only [List.append_nil, List.nil_append]
      · obtain ⟨fuel, rfl⟩ := Nat.exists_eq_succ_of_ne_zero (show fuel ≠ 0 by omega)
        rw [httpParseLoop_blank, List.append_assoc _ crlf]
    obtain ⟨ps, hcount, hall, hloop⟩ := @ih (pre ++ m.bytes ++ gap) fuel (out ++ [p])
      (by simp only [List.length_append]; omega)
      (by simp only [List.length_append, List.length_singleton]; omega)
    refine ⟨p :: ps, congrArg (· + 1) hcount, List.forall_mem_cons.mpr ⟨hshown, hall⟩, ?_⟩
    rw [hround, hskip, hloop, List.append_assoc]
    rfl

theorem httpParse_repeated {m : Message} {asResponse : Bool} (hm : m.Ok asResponse)
    (hsizes : m.Chunks32) {gap : Bytes} (hgap : gap = [] ∨ gap = crlf) {n : Nat}
    (hroom : n ≤ kMaxMessages) :
    ∃ ps, httpParse (List.replicate n (m.bytes ++ gap)).flatten asResponse = some ps ∧
      ps.length = n ∧ ∀ p ∈ ps, m.Shown p := by
  obtain ⟨ps, hcount, hall, hloop⟩ := @httpParseLoop_repeated m asResponse hm hsizes gap hgap n []
    ((List.replicate n (m.bytes ++ gap)).flatten.length + 1) [] (Nat.lt_succ_self _)
    (by simpa using hroom)
  unfold httpParse
  split
  · next hnil =>
    have hzero : n = 0 := by
      have hpos := hm.bytes_pos
      have hlen := congrArg List.length hnil
      rw [List.length_flatten, List.map_replicate, List.sum_replicate_nat, List.length_append,
        List.length_nil] at hlen
      rcases Nat.mul_eq_zero.mp hlen with hzero | hnone
      · exact hzero
      · omega
    exact ⟨[], rfl, hzero.symm, List.forall_mem_nil _⟩
  · exact ⟨ps, hloop, hcount, hall⟩

end NetDebugger.Http
