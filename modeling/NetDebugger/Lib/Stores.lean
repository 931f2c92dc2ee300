import NetDebugger.Lib.LittleEndian

/-! Byte stores to a memory, one at a time: a memory maps addresses to bytes, a block copy is the
list of its single stores, and what a list of stores leaves unchanged. -/

namespace NetDebugger.Lib

/-- A memory: the byte at each address. -/
abbrev Memory := Nat → UInt8

/-- One byte store: the address and the byte. -/
abbrev Store := Nat × UInt8

def Memory.put (m : Memory) (s : Store) : Memory := fun i => if i = s.1 then s.2 else m i

def Memory.putAll (m : Memory) (ss : List Store) : Memory := ss.foldl Memory.put m

/-- The stores of a block copy of `bs` to `addr`. -/
def blockStores (addr : Nat) : List UInt8 → List Store
  | [] => []
  | b :: bs => (addr, b) :: blockStores (addr + 1) bs

@[simp] theorem Memory.putAll_nil (m : Memory) : m.putAll [] = m := rfl

@[simp] theorem Memory.putAll_cons (m : Memory) (s : Store) (ss : List Store) :
    m.putAll (s :: ss) = (m.put s).putAll ss := rfl

theorem Memory.putAll_append (m : Memory) (ss ts : List Store) :
    m.putAll (ss ++ ts) = (m.putAll ss).putAll ts := List.foldl_append

theorem Memory.put_same (m : Memory) (a : Nat) (b : UInt8) : m.put (a, b) a = b := by
  simp [Memory.put]

theorem Memory.put_other (m : Memory) {s : Store} {i : Nat} (h : i ≠ s.1) : m.put s i = m i := by
  simp [Memory.put, h]

/-- Stores leave every other address alone. -/
theorem Memory.putAll_frame (m : Memory) {ss : List Store} {i : Nat} (h : ∀ s ∈ ss, i ≠ s.1) :
    m.putAll ss i = m i := by
  induction ss generalizing m with
  | nil => rfl
  | cons s ss ih =>
    rw [Memory.putAll_cons, ih _ fun t ht => h t (List.mem_cons_of_mem _ ht),
      Memory.put_other m (h s (List.mem_cons_self ..))]

/-- What a memory holds at an address after stores depends on what it held there. -/
theorem Memory.putAll_congr {m m' : Memory} {i : Nat} (h : m i = m' i) (ss : List Store) :
    m.putAll ss i = m'.putAll ss i := by
  induction ss generalizing m m' with
  | nil => exact h
  | cons s ss ih =>
    apply ih
    unfold Memory.put
    rw [h]

theorem blockStores_append (addr : Nat) (bs cs : List UInt8) :
    blockStores addr (bs ++ cs) = blockStores addr bs ++ blockStores (addr + bs.length) cs := by
  induction bs generalizing addr with
  | nil => rfl
  | cons b bs ih =>
    rw [List.cons_append, blockStores, ih, blockStores, List.cons_append, List.length_cons,
      show addr + 1 + bs.length = addr + (bs.length + 1) by omega]

theorem mem_blockStores {addr : Nat} {bs : List UInt8} {s : Store} (h : s ∈ blockStores addr bs) :
    addr ≤ s.1 ∧ s.1 < addr + bs.length := by
  induction bs generalizing addr with
  | nil => simp [blockStores] at h
  | cons b bs ih =>
    rcases List.mem_cons.mp h with rfl | h
    · simp
    · have := ih h
      simp only [List.length_cons]
      omega

/-- After a block copy, the block reads back. -/
theorem putAll_blockStores (m : Memory) (addr : Nat) (bs : List UInt8) {i : Nat}
    (hi : i < bs.length) : m.putAll (blockStores addr bs) (addr + i) = bs[i] := by
  induction bs generalizing m addr i with
  | nil => simp at hi
  | cons b bs ih =>
    rw [blockStores, Memory.putAll_cons]
    cases i with
    | zero =>
      rw [Memory.putAll_frame _ fun s hs => ?_]
      · exact Memory.put_same m addr b
      · have := (mem_blockStores hs).1
        omega
    | succ i =>
      rw [show addr + (i + 1) = addr + 1 + i by omega, ih _ _ (by simpa using hi)]
      rfl

theorem lies_putAll_blockStores (m : Memory) (addr : Nat) (bs : List UInt8) :
    Lies (m.putAll (blockStores addr bs)) addr bs :=
  lies_iff.mpr fun _ hi => putAll_blockStores m addr bs hi

/-- A block copy into a block of memory. -/
theorem readBytes_putAll_blockStores (m : Memory) {addr off n : Nat} {bs : List UInt8}
    (h : off + bs.length ≤ n) :
    readBytes (m.putAll (blockStores (addr + off) bs)) addr n =
      (readBytes m addr n).take off ++ bs ++ (readBytes m addr n).drop (off + bs.length) := by
  have hsplit (m' : Memory) : readBytes m' addr n = readBytes m' addr off ++
      readBytes m' (addr + off) bs.length ++
      readBytes m' (addr + (off + bs.length)) (n - (off + bs.length)) := by
    rw [← readBytes_add, ← readBytes_add, Nat.add_sub_cancel' h]
  have hbefore : readBytes (m.putAll (blockStores (addr + off) bs)) addr off =
      readBytes m addr off := by
    refine readBytes_congr fun i hi => m.putAll_frame fun s hs => ?_
    have := (mem_blockStores hs).1
    omega
  have hafter : readBytes (m.putAll (blockStores (addr + off) bs)) (addr + (off + bs.length))
      (n - (off + bs.length)) = readBytes m (addr + (off + bs.length)) (n - (off + bs.length)) := by
    refine readBytes_congr fun i hi => m.putAll_frame fun s hs => ?_
    have := (mem_blockStores hs).2
    omega
  have htake : (readBytes m addr n).take off = readBytes m addr off := by
    rw [hsplit m, List.append_assoc, List.take_left' (readBytes_length ..)]
  have hdrop : (readBytes m addr n).drop (off + bs.length) =
      readBytes m (addr + (off + bs.length)) (n - (off + bs.length)) := by
    rw [hsplit m, List.drop_left' (by simp)]
  rw [hsplit, hbefore, hafter, lies_putAll_blockStores, htake, hdrop]

/-- Stores elsewhere leave what lies in memory. -/
theorem Lies.putAll {m : Memory} {off : Nat} {bs : List UInt8} {ss : List Store}
    (h : Lies m off bs) (hne : ∀ st ∈ ss, ∀ i < bs.length, off + i ≠ st.1) :
    Lies (m.putAll ss) off bs :=
  h.congr fun i hi => m.putAll_frame fun st hst => hne st hst i hi

end NetDebugger.Lib
