/-!
# Text of bytes

Bytes that are UTF-8 are read as the text they stand for. In other bytes each longest part that
starts no character any more is read as one replacement character.
-/

namespace Bindery.Text

/-- Bytes are compared as compiled code compares them. -/
instance decidableEqBytes : DecidableEq ByteArray := ByteArray.decEq

/-- What the first byte of a character promises: its bits, how many bytes follow, and the range of
the next one. -/
def leadByte (b : Nat) : Option (Nat × Nat × Nat × Nat) :=
  if b < 0x80 then some (b, 0, 0, 0)
  else if b < 0xC2 then none
  else if b < 0xE0 then some (b - 0xC0, 1, 0x80, 0xBF)
  else if b < 0xF0 then
    some (b - 0xE0, 2, if b = 0xE0 then 0xA0 else 0x80, if b = 0xED then 0x9F else 0xBF)
  else if b < 0xF5 then
    some (b - 0xF0, 3, if b = 0xF0 then 0x90 else 0x80, if b = 0xF4 then 0x8F else 0xBF)
  else none

/-- Reads the following bytes of a character as long as they are in range. -/
def following : Nat → Nat → Nat → Nat → List UInt8 → Option Nat × List UInt8
  | 0, _, _, n, bs => (some n, bs)
  | _ + 1, _, _, _, [] => (none, [])
  | k + 1, low, high, n, b :: bs =>
    if low ≤ b.toNat ∧ b.toNat ≤ high then following k 0x80 0xBF (n * 64 + (b.toNat - 0x80)) bs
    else (none, b :: bs)

theorem length_following_le (k low high n : Nat) (bs : List UInt8) :
    (following k low high n bs).2.length ≤ bs.length := by
  induction bs generalizing k low high n with
  | nil => cases k <;> simp [following]
  | cons b bs ih =>
    cases k with
    | zero => simp [following]
    | succ k =>
      unfold following
      split
      · have := ih k 0x80 0xBF (n * 64 + (b.toNat - 0x80))
        simp only [List.length_cons]
        omega
      · simp

def replacement : Char := '\ufffd'

/-- The characters of bytes that need not be UTF-8. -/
def lossyChars : List UInt8 → List Char
  | [] => []
  | b :: bs =>
    match leadByte b.toNat with
    | none => replacement :: lossyChars bs
    | some (n, k, low, high) =>
      let next := following k low high n bs
      ((next.1.map Char.ofNat).getD replacement) :: lossyChars next.2
termination_by bs => bs.length
decreasing_by
  · simp
  · have := length_following_le k low high n bs
    simp only [List.length_cons]
    omega

def ofBytes (bytes : ByteArray) : String :=
  match String.fromUTF8? bytes with
  | some s => s
  | none => String.ofList (lossyChars bytes.data.toList)

end Bindery.Text
