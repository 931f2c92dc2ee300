import NetDebugger.Lib.Stores

/-! A paged memory.  Each page of addresses has a frame of physical memory, so that a block is in one
piece only within its page.  A block copy through the page table, one page after another, is one copy
in the paged memory. -/

namespace NetDebugger.Lib

structure PageTable where
  pageSize : Nat
  frame : Nat → Nat

namespace PageTable

variable (t : PageTable)

/-- The physical address behind an address. -/
def translate (va : Nat) : Nat := t.frame (va / t.pageSize) * t.pageSize + va % t.pageSize

/-- The memory as it is seen through the table. -/
def view (m : Memory) : Memory := fun va => m (t.translate va)

/-- Stores through the table. -/
def storeAll (m : Memory) (ss : List Store) : Memory :=
  m.putAll (ss.map fun s => (t.translate s.1, s.2))

/-- The pages of these addresses have frames of their own. -/
def Own (P : Nat → Prop) : Prop := ∀ va, P va → ∀ va', P va' →
  t.frame (va / t.pageSize) = t.frame (va' / t.pageSize) → va / t.pageSize = va' / t.pageSize

variable {t}

theorem translate_add {va j : Nat} (h : va % t.pageSize + j < t.pageSize) :
    t.translate (va + j) = t.translate va + j := by
  have hpage : (va + j) / t.pageSize = va / t.pageSize := by
    have hva := Nat.div_add_mod va t.pageSize
    rw [Nat.div_eq_iff (by omega), Nat.mul_comm]
    have hcomm := Nat.mul_comm (va / t.pageSize) t.pageSize
    omega
  have hoff : (va + j) % t.pageSize = va % t.pageSize + j := by
    rw [Nat.add_mod, Nat.mod_eq_of_lt (show j < t.pageSize by omega), Nat.mod_eq_of_lt h]
  rw [translate, translate, hpage, hoff, Nat.add_assoc]

/-- Within a page, a physical block is the block that is seen. -/
theorem readBytes_translate (m : Memory) {va n : Nat} (h : va % t.pageSize + n ≤ t.pageSize) :
    readBytes m (t.translate va) n = readBytes (t.view m) va n :=
  readBytes_congr fun i hi => by rw [view, translate_add (by omega)]

theorem Own.translate_inj {P : Nat → Prop} (h : t.Own P) (hpos : 0 < t.pageSize) {va va' : Nat}
    (hva : P va) (hva' : P va') (heq : t.translate va = t.translate va') : va = va' := by
  unfold translate at heq
  have hlt := Nat.mod_lt va hpos
  have hlt' := Nat.mod_lt va' hpos
  have hframe : t.frame (va / t.pageSize) = t.frame (va' / t.pageSize) := by
    have hdiv := congrArg (· / t.pageSize) heq
    simpa only [Nat.mul_comm _ t.pageSize, Nat.mul_add_div hpos, Nat.div_eq_of_lt hlt,
      Nat.div_eq_of_lt hlt', Nat.add_zero] using hdiv
  have hpage := h va hva va' hva' hframe
  rw [hframe] at heq
  rw [← Nat.div_add_mod va t.pageSize, ← Nat.div_add_mod va' t.pageSize, hpage]
  omega

theorem storeAll_append (m : Memory) (ss ss' : List Store) :
    t.storeAll m (ss ++ ss') = t.storeAll (t.storeAll m ss) ss' := by
  rw [storeAll, List.map_append, Memory.putAll_append]
  rfl

/-- Where pages have frames of their own, a store through the table is a store in what is seen. -/
theorem view_storeAll {P : Nat → Prop} (h : t.Own P) (hpos : 0 < t.pageSize) (m : Memory)
    {ss : List Store} (hss : ∀ s ∈ ss, P s.1) {va : Nat} (hva : P va) :
    t.view (t.storeAll m ss) va = (t.view m).putAll ss va := by
  induction ss generalizing m with
  | nil => rfl
  | cons s ss ih =>
    have hfirst : t.view (m.put (t.translate s.1, s.2)) va = (t.view m).put s va := by
      unfold view Memory.put
      by_cases hsame : va = s.1
      · rw [if_pos (by rw [hsame]), if_pos hsame]
      · rw [if_neg fun heq => hsame (h.translate_inj hpos hva (hss s (List.mem_cons_self ..)) heq),
          if_neg hsame]
    have hrest := ih (m.put (t.translate s.1, s.2)) fun s' hs' => hss s' (List.mem_cons_of_mem _ hs')
    exact hrest.trans (Memory.putAll_congr hfirst ss)

end PageTable

end NetDebugger.Lib
