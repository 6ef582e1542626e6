import Bindery.Error
import Bindery.Text.CodePage
import Bindery.Text.Utf8
import Bindery.Zip.Checksum
import Bindery.Zip.Format
import Bindery.Zip.Inflate

/-!
# Reading archives

The record of the end is looked for from the end of the bytes backwards; a record that cannot be
one, or whose directory cannot be read, gives way to an earlier one. Bytes may stand before the
archive, so the directory is looked for from where the record says it starts, and all places are
shifted by as much as it was found later.
-/

namespace Bindery.Zip

/-- A member of an archive: its header and what reading it gives. -/
structure Member where
  name : String
  method : Method
  time : Time
  content : Except Error ByteArray

namespace Read

/-- The places at which a mark stands, counted from a place. -/
def marks (mark : List UInt8) : Nat → List UInt8 → List Nat
  | _, [] => []
  | place, b :: r =>
    if mark.isPrefixOf (b :: r) then place :: marks mark (place + 1) r
    else marks mark (place + 1) r

/-- What the record of the end says, and where the directory is. -/
structure Directory where
  /-- How many members there are. -/
  count : Nat
  /-- Where the directory starts. -/
  start : Nat
  /-- How much later all parts are than their headers say. -/
  shift : Nat
  /-- Whether the archive is on one disk. -/
  whole : Bool

/-- What becomes of a place at which the mark of the record stands. -/
inductive Candidate where
  | directory (d : Directory)
  /-- The bytes end inside the record or its comment. -/
  | cutShort (e : Error)
  /-- Nowhere before the record is there a directory. -/
  | misplaced
  /-- An empty directory would start before the bytes. -/
  | refused

def unexpectedEnd : Error := .storage .unexpectedEnd

def noDirectory : Error := .archive .directory

def noEnd : Error := .archive .noEnd

/-- The directory of the record at a place. -/
def candidate (bytes : List UInt8) (place : Nat) : Candidate :=
  let record := bytes.drop place
  if record.length < endSize then .cutShort unexpectedEnd
  else if record.length < endSize + field record 20 2 then .cutShort (.archive .comment)
  else
    let stated := field record 16 4
    let directory (start : Nat) : Directory :=
      ⟨field record 8 2, start, start - stated, field record 4 2 = field record 6 2⟩
    if field record 10 2 = 0 then
      if stated ≤ place then .directory (directory place) else .refused
    else
      match (marks directoryMark stated ((bytes.take place).drop stated)).head? with
      | some start => .directory (directory start)
      | none => .misplaced

/-- The bytes of a header with the fields of variable size that follow its fixed part. -/
def header (bytes mark : List UInt8) (size place : Nat) (fields : List Nat) :
    Except Error (List UInt8 × Nat) :=
  let h := bytes.drop place
  let full := size + (fields.map fun f => field h f 2).foldr (· + ·) 0
  if h.length < full then .error unexpectedEnd
  else if mark.isPrefixOf h then .ok (h.take full, place + full)
  else .error noDirectory

/-- The bytes of a member from its data. -/
def content (method : Method) (flags sum : Nat) (data : List UInt8) : Except Error ByteArray :=
  let check (out : Array UInt8) : Except Error ByteArray :=
    if (checksum out.toList).toNat = sum then .ok ⟨out⟩ else .error (.storage .checksum)
  if flags.testBit encryptedFlag then .error (.archive .encrypted)
  else
    match method with
    | .store => check data.toArray
    | .deflate =>
      match inflate data with
      | (_, .error .corrupt) => .error (.storage .corrupt)
      | (out, _) => check out
    | .other _ => .error (.archive .method)

/-- The member whose header in the directory is at a place, and the place after it. -/
def member (bytes : List UInt8) (d : Directory) (place : Nat) : Except Error (Member × Nat) := do
  let (h, next) ← header bytes directoryMark directorySize place [28, 30, 32]
  let flags := field h 8 2
  let name := (h.drop directorySize).take (field h 28 2)
  let start := field h 42 4 + d.shift
  if d.start ≤ start then throw noDirectory
  let (_, data) ← header bytes localMark localSize start [26, 28]
  if d.start < data then throw noDirectory
  let method := Method.ofCode (field h 10 2)
  return ({
    name := if flags.testBit unicodeFlag then Text.ofBytes ⟨name.toArray⟩ else Text.ofCodePage name
    method
    time := .ofFields (field h 14 2) (field h 12 2)
    content := content method flags (field h 16 4) ((bytes.drop data).take (field h 20 4)) }, next)

def members (bytes : List UInt8) (d : Directory) : Nat → Nat → Except Error (List Member)
  | 0, _ => .ok []
  | count + 1, place => do
    let (m, next) ← member bytes d place
    return m :: (← members bytes d count next)

/-- The members by the first of some places that gives them. If none does, the error is what the
last place lacked, but a record that is cut short counts only after no other. -/
def fromPlaces (bytes : List UInt8) : Error → List Nat → Except Error (List Member)
  | e, [] => .error e
  | e, place :: earlier =>
    match candidate bytes place with
    | .refused => .error noDirectory
    | .misplaced => fromPlaces bytes noDirectory earlier
    | .cutShort e' => fromPlaces bytes (if e = noEnd then e' else e) earlier
    | .directory d =>
      match if d.whole then members bytes d d.count d.start else .error noDirectory with
      | .ok ms => .ok ms
      | .error _ => fromPlaces bytes noEnd earlier

end Read

/-- The members of an archive in their order. -/
def read (bytes : ByteArray) : Except Error (List Member) :=
  let bytes := bytes.data.toList
  Read.fromPlaces bytes Read.noEnd (Read.marks endMark 0 bytes).reverse

end Bindery.Zip
