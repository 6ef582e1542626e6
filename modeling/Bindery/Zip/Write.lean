import Bindery.Text.Utf8
import Bindery.Zip.Checksum
import Bindery.Zip.Format

/-!
# Writing archives

Members are written in order. Deflate data consist of stored blocks, so they are read back without
any code; equal members give equal bytes.
-/

namespace Bindery.Zip

/-- A member to be written. -/
structure NewMember where
  name : String
  content : ByteArray
  deriving DecidableEq

/-- How and when the members of an archive are written. -/
structure Stamp where
  method : Method
  time : Time

namespace Write

/-- The most bytes that a stored block holds. -/
def blockLimit : Nat := 65535

/-- A stored block. -/
def block (last : Bool) (bytes : List UInt8) : List UInt8 :=
  (if last then 1 else 0) :: bytesOf 2 bytes.length ++ bytesOf 2 (65535 - bytes.length) ++ bytes

/-- Deflate data for some bytes. -/
def deflate (bytes : List UInt8) : List UInt8 :=
  if bytes.length ≤ blockLimit then block true bytes
  else block false (bytes.take blockLimit) ++ deflate (bytes.drop blockLimit)
termination_by bytes.length
decreasing_by simp only [blockLimit, List.length_drop] at *; omega

/-- The data that keep some bytes. -/
def data (method : Method) (bytes : List UInt8) : List UInt8 :=
  if method = .deflate then deflate bytes else bytes

def nameBytes (m : NewMember) : List UInt8 := m.name.toUTF8.data.toList

/-- The fields that the two headers of a member have in common. -/
def fields (stamp : Stamp) (m : NewMember) : List UInt8 :=
  let content := m.content.data.toList
  let flags := if m.name.toList.all (·.toNat < 128) then 0 else Nat.pow 2 unicodeFlag
  bytesOf 2 20 ++ bytesOf 2 flags ++ bytesOf 2 stamp.method.code
    ++ bytesOf 2 stamp.time.clockField ++ bytesOf 2 stamp.time.dateField
    ++ bytesOf 4 (checksum content).toNat ++ bytesOf 4 (data stamp.method content).length
    ++ bytesOf 4 content.length ++ bytesOf 2 (nameBytes m).length ++ bytesOf 2 0

/-- The local header of a member with its data. -/
def localPart (stamp : Stamp) (m : NewMember) : List UInt8 :=
  localMark ++ fields stamp m ++ nameBytes m ++ data stamp.method m.content.data.toList

/-- What the directory says about the access to a file: readable by all, writable by its owner. -/
def access : Nat := 0o100644 * 65536

/-- The header in the directory of a member whose local header is at a place. -/
def directoryPart (stamp : Stamp) (m : NewMember) (place : Nat) : List UInt8 :=
  directoryMark ++ bytesOf 2 (3 * 256 + 20) ++ fields stamp m ++ bytesOf 2 0 ++ bytesOf 2 0
    ++ bytesOf 2 0 ++ bytesOf 4 access ++ bytesOf 4 place ++ nameBytes m

/-- The local parts and the directory of members from a place on. -/
def parts (stamp : Stamp) : Nat → List NewMember → List UInt8 × List UInt8
  | _, [] => ([], [])
  | place, m :: r =>
    let part := localPart stamp m
    let rest := parts stamp (place + part.length) r
    (part ++ rest.1, directoryPart stamp m place ++ rest.2)

/-- The record of the end. -/
def endPart (count size place : Nat) : List UInt8 :=
  endMark ++ bytesOf 2 0 ++ bytesOf 2 0 ++ bytesOf 2 count ++ bytesOf 2 count ++ bytesOf 4 size
    ++ bytesOf 4 place ++ bytesOf 2 0

end Write

/-- An archive of members, all with the same stamp. -/
def write (stamp : Stamp) (members : List NewMember) : ByteArray :=
  let (locals, directory) := Write.parts stamp 0 members
  ⟨(locals ++ directory
    ++ Write.endPart members.length directory.length locals.length).toArray⟩

end Bindery.Zip
