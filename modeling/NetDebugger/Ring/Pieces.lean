import NetDebugger.Lib.Fifo
import NetDebugger.Ring.Hostile
import NetDebugger.Ring.System

/-! The unread part of the ring as a list of pieces, WRAP pads and records, that lie one after the
other from the consumer's position.  A store behind the last piece and less than the data area
ahead of the first leaves all of them as they are. -/

namespace NetDebugger.Ring

open Lib

/-- A pad, of which only the header is written, or a record. -/
inductive Piece
  | pad (call : WriteCall) (len sequence : Nat)
  | record (a : Accepted)

def Piece.len : Piece → Nat
  | .pad _ len _ => len
  | .record a => a.place.recLen

def Piece.header : Piece → KndRecord
  | .pad c len sequence => ⟨len, kndRecWrap, 0, sequence, c.timestamp⟩
  | .record a => ⟨a.place.recLen, a.call.type, a.call.flags, a.sequence, a.call.timestamp⟩

def Piece.bytes : Piece → List UInt8
  | .pad c len sequence => wrapBytes c len sequence
  | .record a => a.bytes

/-- What the loop of `KndClient::poll` does with the piece. -/
def Piece.turn : Piece → Turn
  | .pad _ len _ => .skip len
  | .record a => .record a.place.recLen

def records : List Piece → List (List UInt8)
  | [] => []
  | .pad .. :: xs => records xs
  | .record a :: xs => a.bytes :: records xs

def span : List Piece → Nat
  | [] => 0
  | x :: xs => x.len + span xs

@[simp] theorem span_nil : span [] = 0 := rfl

@[simp] theorem span_cons (x : Piece) (xs : List Piece) : span (x :: xs) = x.len + span xs := rfl

@[simp] theorem span_append (xs ys : List Piece) : span (xs ++ ys) = span xs + span ys := by
  induction xs with
  | nil => simp
  | cons x xs ih => simp [ih, Nat.add_assoc]

theorem records_append (xs ys : List Piece) : records (xs ++ ys) = records xs ++ records ys := by
  induction xs with
  | nil => rfl
  | cons x xs ih => cases x <;> simp [records, ih]

/-- A piece that can stand at the position `p`. -/
structure Piece.Fits (D p : Nat) (x : Piece) : Prop where
  low : 24 ≤ x.len
  align : x.len % 8 = 0
  high : p % D + x.len ≤ D
  sequence : x.header.sequence < 2 ^ 64
  bytes_le : x.bytes.length ≤ x.len
  record : ∀ a, x = .record a → a.bytes.length = a.place.recLen ∧ a.call.type ≠ kndRecWrap

/-- The pieces lie in the data area from the position `p` on. -/
def OnRing (D : Nat) (m : Memory) : Nat → List Piece → Prop
  | _, [] => True
  | p, x :: xs => x.Fits D p ∧ Lies m (p % D) x.bytes ∧ OnRing D m (p + x.len) xs

theorem onRing_append {D : Nat} {m : Memory} {p : Nat} {xs ys : List Piece} :
    OnRing D m p (xs ++ ys) ↔ OnRing D m p xs ∧ OnRing D m (p + span xs) ys := by
  induction xs generalizing p with
  | nil => simp [OnRing]
  | cons x xs ih => simp [OnRing, ih, Nat.add_assoc, and_assoc]

/-- A store to a cell that the pieces do not use. -/
theorem OnRing.put {D : Nat} {m : Memory} {p : Nat} {xs : List Piece} {st : Store}
    (h : OnRing D m p xs) {q : Nat} (hq : p + span xs ≤ q) (hlt : q < p + D) (hst : st.1 = q % D) :
    OnRing D (m.put st) p xs := by
  induction xs generalizing p with
  | nil => trivial
  | cons x xs ih =>
    obtain ⟨hfits, hlies, hrest⟩ := h
    rw [span_cons] at hq
    refine ⟨hfits, ?_, ih hrest (by omega) (by omega)⟩
    refine hlies.congr fun i hi => Memory.put_other m ?_
    have hlow := hfits.low
    have hhigh := hfits.high
    have hle := hfits.bytes_le
    rw [hst]
    by_cases hfull : p % D + i < D
    · rw [← cell_add hfull]
      exact cell_ne (by omega) (by omega)
    · omega

theorem span_eq_zero {D : Nat} {m : Memory} {p : Nat} {xs : List Piece} (h : OnRing D m p xs)
    (hspan : span xs = 0) : xs = [] := by
  cases xs with
  | nil => rfl
  | cons x xs =>
    have hlow := h.1.low
    rw [span_cons] at hspan
    omega

theorem Piece.header_bytes (x : Piece) : ∃ rest, x.bytes = x.header.bytes ++ rest := by
  cases x with
  | pad c len sequence => exact ⟨[], by simp [Piece.bytes, Piece.header, wrapBytes]⟩
  | record a =>
    rw [Piece.bytes, Accepted.bytes, recordBytes, List.append_assoc, List.append_assoc]
    exact ⟨_, rfl⟩

/-- The consumer recognises the piece at its position. -/
theorem pollTurn_piece {D : Nat} (hD : RingSize D) {m : Memory} {p : Nat} {x : Piece}
    (hfits : x.Fits D p) (hlies : Lies m (p % D) x.bytes) : pollTurn m D p = x.turn := by
  have hlow := hfits.low
  have hhigh := hfits.high
  have hsize := hD.high
  have hmod : p % D < D := Nat.mod_lt _ (by have := hD.low; omega)
  have hoff : (p &&& (D - 1)) % 2 ^ 32 = p % D := by
    rw [and_mask_eq_mod hD.power]
    exact Nat.mod_eq_of_lt (by omega)
  have hlen : x.header.length = x.len := by cases x <;> rfl
  obtain ⟨rest, hbytes⟩ := x.header_bytes
  rw [hbytes, lies_append] at hlies
  have hread : (KndRecord.read fun i => m (p % D + i)) = x.header :=
    KndRecord.read_of_lies (by omega) hfits.sequence
      (hlies.1.congr fun i _ => by rw [Nat.zero_add])
  have halign : x.len &&& (kndRecordAlign - 1) = 0 :=
    (and_mask_eq_mod ⟨3, rfl⟩ x.len).trans hfits.align
  simp only [pollTurn, hoff, hread, hlen, sizeofKndRecord]
  rw [if_neg (by rw [halign]; omega)]
  cases x with
  | pad c len sequence => exact if_neg (not_not.mpr rfl)
  | record a => exact if_pos (hfits.record a rfl).2

end NetDebugger.Ring
