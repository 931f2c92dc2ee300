import Mathlib.Data.UInt

/-! Strings as lists of bytes, and the conversions of `printf`. -/

namespace NetDebugger.Lib

/-- What holds of the bytes of a text is decided along the text, not over all bytes. -/
instance (priority := 1100) decidableBytes (bs : List UInt8) (p : UInt8 → Prop) [DecidablePred p] :
    Decidable (∀ c ∈ bs, p c) := List.decidableBAll p bs

instance (priority := 1100) decidableByte (b : Option UInt8) (p : UInt8 → Prop) [DecidablePred p] :
    Decidable (∀ c ∈ b, p c) := Option.decidableForallMem b

def text (s : String) : List UInt8 := s.toList.map fun c => UInt8.ofNat c.toNat

/-- `%u`. -/
def decimal (n : Nat) : List UInt8 := (Nat.toDigits 10 n).map fun c => UInt8.ofNat c.toNat

/-- `%x`. -/
def hex (n : Nat) : List UInt8 := (Nat.toDigits 16 n).map fun c => UInt8.ofNat c.toNat

/-- `%04x`. -/
def hex4 (n : Nat) : List UInt8 := List.replicate (4 - (hex n).length) 0x30 ++ hex n

/-- `%s` of a `c_str()`, which ends at the first NUL. -/
def cString (bs : List UInt8) : List UInt8 := bs.takeWhile (· ≠ 0)

/-- What `snprintf` leaves in a buffer of `size` bytes, without the final NUL. -/
def snprintf (size : Nat) (bs : List UInt8) : List UInt8 := bs.take (size - 1)

end NetDebugger.Lib
