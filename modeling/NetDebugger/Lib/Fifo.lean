import NetDebugger.Lib.Runs

/-! A first-in first-out channel, kept as its history: what was sent and what was received, in
order. A receive returns the oldest message not yet received. -/

namespace NetDebugger.Lib

/-- The history of a channel. -/
structure Fifo (α : Type*) where
  sent : List α
  received : List α

/-- What can happen to a channel. -/
inductive FifoEvent (α : Type*)
  | send (a : α)
  | receive

namespace Fifo

variable {α : Type*}

def empty : Fifo α := ⟨[], []⟩

def step (q : Fifo α) : FifoEvent α → Option (Fifo α)
  | .send a => some { q with sent := q.sent ++ [a] }
  | .receive => q.sent[q.received.length]?.map fun a => { q with received := q.received ++ [a] }

/-- The messages on their way. -/
def pending (q : Fifo α) : List α := q.sent.drop q.received.length

/-- What a channel guarantees: the receiver has a prefix of what was sent. -/
def Ordered (q : Fifo α) : Prop := q.received <+: q.sent

theorem empty_ordered : (empty : Fifo α).Ordered := List.prefix_refl _

theorem step_ordered {q r : Fifo α} {e : FifoEvent α} (hq : q.Ordered) (h : q.step e = some r) :
    r.Ordered := by
  cases e with
  | send a =>
    obtain rfl := Option.some.inj h
    exact hq.trans (List.prefix_append _ _)
  | receive =>
    obtain ⟨a, ha, rfl⟩ := Option.map_eq_some_iff.mp h
    obtain ⟨rest, hrest⟩ := hq
    have hnext : rest.head? = some a := by
      rw [← ha, ← hrest, List.getElem?_append_right (Nat.le_refl _), Nat.sub_self,
        List.head?_eq_getElem?]
    obtain ⟨tail, rfl⟩ := List.head?_eq_some_iff.mp hnext
    exact ⟨tail, by rw [← hrest, List.append_assoc]; rfl⟩

/-- The receiver always has a prefix of what was sent. -/
theorem run_ordered {q : Fifo α} {es : List (FifoEvent α)} (h : runEvents step empty es = some q) :
    q.Ordered :=
  runEvents_invariant (fun _ => True) (fun _ _ _ _ hs ht => step_ordered hs ht)
    empty_ordered (fun _ _ => trivial) h

/-- Sending appends to the messages on their way. -/
theorem pending_send {q : Fifo α} (hq : q.Ordered) (a : α) :
    pending { q with sent := q.sent ++ [a] } = q.pending ++ [a] :=
  List.drop_append_of_le_length hq.length_le

/-- A receive that finds the head of the messages on their way removes it. -/
theorem receive_pending {q : Fifo α} {a : α} {rest : List α} (h : q.pending = a :: rest) :
    q.step .receive = some { q with received := q.received ++ [a] } ∧
      pending { q with received := q.received ++ [a] } = rest := by
  have hget : q.sent[q.received.length]? = some a := by
    rw [← List.head?_drop, show q.sent.drop q.received.length = a :: rest from h]
    rfl
  refine ⟨by simp [step, hget], ?_⟩
  have hdrop : q.sent.drop (q.received.length + 1) = (q.sent.drop q.received.length).drop 1 := by
    rw [List.drop_drop]
  simp only [pending, List.length_append, List.length_singleton]
  rw [hdrop, show q.sent.drop q.received.length = a :: rest from h]
  rfl

end Fifo

end NetDebugger.Lib
