import NetDebugger.Ring.Invariant

/-! Ring and poll, run after run: every interleaving is a run of a first-in first-out channel. -/

namespace NetDebugger.Ring

open Lib

/-- One access keeps the invariant, and the channel answers it with at most one event. -/
theorem step_refines {D : Nat} {y z : System} {e : Event} (hD : RingSize D)
    (hlegal : ∀ c, e = .call c → c.Legal) (h : Inv D y) (hstep : y.step e = some z) :
    Inv D z ∧ ∃ ds, runEvents Fifo.step y.channel ds = some z.channel := by
  obtain ⟨cur, h⟩ := h
  cases System.step_cases hstep with
  | call c hp =>
    have hsame : (y.begin c).channel = y.channel := by
      rw [System.channel, System.begin_accepted, System.begin_delivered, System.channel]
    exact ⟨⟨cur, begin_inv hD h hp (hlegal c rfl)⟩, [], by rw [hsame]; rfl⟩
  | store p st rest hp hst => exact ⟨⟨cur, store_inv h hp hst⟩, [], rfl⟩
  | publish p hp hst =>
    obtain ⟨news, hinv⟩ := publish_inv h hp hst
    refine ⟨⟨cur ++ news, hinv⟩, [.send p.accepted.bytes], ?_⟩
    simp [runEvents, Fifo.step, System.channel, System.publish]
  | sample hc => exact ⟨⟨cur, sample_inv hD h hc⟩, [], rfl⟩
  | walk wp rp hc hlt =>
    have hsame : (y.walk wp rp).channel = y.channel := by
      rw [System.channel, System.walk_accepted, System.walk_delivered, System.channel]
    exact ⟨walk_inv hD h hc hlt, [], by rw [hsame]; rfl⟩
  | copy wp rp len got hc hlt => exact ⟨⟨cur, copy_inv hD h hc hlt⟩, [], rfl⟩
  | deliver wp rp len got hc hle =>
    obtain ⟨hinv, hreceive⟩ := deliver_inv h hc hle
    exact ⟨hinv, [.receive], runEvents_cons.mpr ⟨_, hreceive, rfl⟩⟩
  | release wp rp hc hle => exact ⟨⟨cur, release_inv h hc⟩, [], rfl⟩

/-- Calls are legal; the other events carry nothing. -/
def Event.Legal (e : Event) : Prop := ∀ c, e = .call c → c.Legal

def Refines (D : Nat) (y : System) (q : Fifo (List UInt8)) : Prop := q = y.channel ∧ Inv D y

/-- Every run of ring and poll is a run of the channel. -/
theorem run_refines {D : Nat} {y : System} {es : List Event} (hD : RingSize D)
    (hlegal : ∀ e ∈ es, e.Legal)
    (hrun : runEvents System.step (System.initial (RingState.fresh D)) es = some y) :
    Inv D y ∧ ∃ ds, runEvents Fifo.step Fifo.empty ds = some y.channel := by
  have hinit : Refines D (System.initial (RingState.fresh D)) Fifo.empty := ⟨rfl, inv_initial hD⟩
  have hstep : ∀ s a e t, Event.Legal e → Refines D s a → System.step s e = some t →
      ∃ ds b, runEvents Fifo.step a ds = some b ∧ Refines D t b := by
    rintro s a e t he ⟨rfl, hs⟩ ht
    obtain ⟨hinv, ds, hds⟩ := step_refines hD he hs ht
    exact ⟨ds, t.channel, hds, rfl, hinv⟩
  obtain ⟨ds, q, hds, rfl, hinv⟩ := runEvents_simulation _ hstep hinit hlegal hrun
  exact ⟨hinv, ds, hds⟩

end NetDebugger.Ring
