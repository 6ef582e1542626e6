import Bindery.Zip.Time

/-!
# The parts of an archive

An archive holds a local header and the data of each member, then a directory with a header for
each member, then a record of its end. Numbers are written with the lowest byte first.
-/

namespace Bindery.Zip

/-- How the data of a member are kept. -/
inductive Method where
  | store
  | deflate
  | other (code : Nat)
  deriving DecidableEq, Repr

namespace Method

def code : Method → Nat
  | .store => 0
  | .deflate => 8
  | .other code => code

def ofCode : Nat → Method
  | 0 => .store
  | 8 => .deflate
  | code => .other code

end Method

/-- The number that bytes give. -/
def number : List UInt8 → Nat
  | [] => 0
  | b :: r => b.toNat + 256 * number r

/-- A number in so many bytes. -/
def bytesOf : Nat → Nat → List UInt8
  | 0, _ => []
  | width + 1, n => .ofNat n :: bytesOf width (n / 256)

theorem number_bytesOf (width n : Nat) : number (bytesOf width n) = n % Nat.pow 256 width := by
  induction width generalizing n with
  | zero => simp [bytesOf, number, Nat.mod_one]
  | succ width ih =>
    have h : Nat.pow 256 (width + 1) = 256 * Nat.pow 256 width := Nat.mul_comm _ _
    simp only [bytesOf, number, ih, UInt8.toNat_ofNat', h, Nat.mod_mul]

@[simp] theorem length_bytesOf (width n : Nat) : (bytesOf width n).length = width := by
  induction width generalizing n with
  | zero => rfl
  | succ width ih => simp [bytesOf, ih]

/-- The number in so many bytes at a place of a header. -/
def field (header : List UInt8) (place width : Nat) : Nat :=
  number ((header.drop place).take width)

/-- What a local header starts with. -/
def localMark : List UInt8 := [0x50, 0x4B, 3, 4]

/-- What a header in the directory starts with. -/
def directoryMark : List UInt8 := [0x50, 0x4B, 1, 2]

/-- What the record of the end starts with. -/
def endMark : List UInt8 := [0x50, 0x4B, 5, 6]

/-- The sizes of the parts that have a fixed size. -/
def localSize : Nat := 30

def directorySize : Nat := 46

def endSize : Nat := 22

/-- The flag of a member whose data are encrypted. -/
def encryptedFlag : Nat := 0

/-- The flag of a member whose name is UTF-8. -/
def unicodeFlag : Nat := 11

end Bindery.Zip
