import Bindery.Error

/-!
# Frames

Over a stream of bytes a message is a frame: the length of its text in four bytes, the least
first, and the text. A stream may end before a frame or inside the four bytes; an end inside a
text is an error. `readAll` reads the frames of a whole stream.
-/

namespace Bindery.Frame

/-- The longest text that is read. -/
def limit : Nat := 104857600

/-- A number in four bytes, the least first. -/
def lengthBytes (n : Nat) : List UInt8 :=
  [.ofNat n, .ofNat (n / 256), .ofNat (n / 65536), .ofNat (n / 16777216)]

def lengthValue (a b c d : UInt8) : Nat :=
  a.toNat + 256 * b.toNat + 65536 * c.toNat + 16777216 * d.toNat

/-- The bytes of a text. -/
def textBytes (s : String) : List UInt8 := s.toUTF8.data.toList

/-- The frame of a message. Its length has to fit four bytes. -/
def encode (v : Json) : Except Error (List UInt8) :=
  let body := textBytes v.compress
  if body.length < Nat.pow 2 32 then .ok (lengthBytes body.length ++ body)
  else .error (.message (.frameTooLarge body.length))

/-- What a stream starts with. -/
inductive Reading where
  | message (v : Json) (rest : List UInt8)
  /-- A frame that is refused, and what follows the part of it that was read. -/
  | refused (e : Error) (rest : List UInt8)
  /-- No length; perhaps a part of one. -/
  | noLength
  /-- A length and not as many bytes. -/
  | shortBody

def parseBytes (bs : List UInt8) : Except Json.Fault Json :=
  match String.fromUTF8? ⟨bs.toArray⟩ with
  | some s => Json.parse s
  | none => .error .grammar

/-- Reads a frame. -/
def read : List UInt8 → Reading
  | a :: b :: c :: d :: r =>
    let n := lengthValue a b c d
    if limit < n then .refused (.message (.frameTooLarge n)) r
    else if r.length < n then .shortBody
    else
      match parseBytes (r.take n) with
      | .ok v => .message v (r.drop n)
      | .error f => .refused (.json f) (r.drop n)
  | _ => .noLength

theorem length_rest_lt {bs rest : List UInt8} {v : Json} (h : read bs = .message v rest) :
    rest.length < bs.length := by
  unfold read at h
  split at h
  · simp only [] at h
    split at h
    · simp at h
    · split at h
      · simp at h
      · split at h
        · simp only [Reading.message.injEq] at h
          simp only [← h.2, List.length_drop, List.length_cons]
          omega
        · simp at h
  · simp at h

/-- The messages of a stream up to its end, or up to an error. -/
def readAll (bs : List UInt8) : List Json × Option Error :=
  match _h : read bs with
  | .message v rest =>
    let r := readAll rest
    (v :: r.1, r.2)
  | .refused e _ => ([], some e)
  | .noLength => ([], none)
  | .shortBody => ([], some (.storage .unexpectedEnd))
termination_by bs.length
decreasing_by exact length_rest_lt _h

end Bindery.Frame
