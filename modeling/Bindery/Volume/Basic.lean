import Bindery.Text.Utf8
import Bindery.Volume.Archive
import Bindery.Volume.Disk

/-!
# Volumes

A volume is a place where files live: in memory, in an archive that is only read, or on the disk.
A volume is held by a handle; `Storage` holds what the handles lead to. Two handles can lead to the
same files in memory, and are two volumes all the same.
-/

namespace Bindery

/-- Where the files of a volume are. -/
inductive Medium where
  | memory (slot : Nat)
  | archive (slot : Nat)
  | disk
  deriving DecidableEq, Repr

/-- A handle of a volume. -/
structure Volume where
  id : Nat
  medium : Medium
  deriving DecidableEq, Repr

inductive FileKind where
  | file
  | directory
  deriving DecidableEq, Repr

/-- Files by their full names. -/
abbrev Files := Table ByteArray

namespace Files

def isFile (f : Files) (path : String) : Bool := path ∈ f.keys

def list (f : Files) (path : String) : List String := Listing.children f.keys path

def stat? (f : Files) (path : String) : Option FileKind :=
  if f.isFile path then some .file
  else if Listing.isDirectory f.keys path then some .directory
  else none

end Files

/-- The archive in a file of a disk. No file has the empty path. -/
def Archive.ofFile (d : Disk) (path : String) : Except Error Archive :=
  if path = "" then .error (.notFound path) else (d.read path).bind ofBytes

def Archive.stat? (a : Archive) (path : String) : Option FileKind :=
  if a.isFile path then some .file
  else if a.isDirectory path then some .directory
  else none

/-- The contents of all volumes. -/
structure Storage where
  memories : List Files
  archives : List Archive
  disk : Disk
  /-- How many handles have been given out. -/
  handles : Nat

namespace Storage

def empty (disk : Disk) : Storage := ⟨[], [], disk, 0⟩

/-! ## New volumes -/

def handle (st : Storage) (medium : Medium) : Storage × Volume :=
  ({ st with handles := st.handles + 1 }, ⟨st.handles, medium⟩)

def addMemory (st : Storage) (files : Files) : Storage × Volume :=
  handle { st with memories := st.memories ++ [files] } (.memory st.memories.length)

def addArchive (st : Storage) (a : Archive) : Storage × Volume :=
  handle { st with archives := st.archives ++ [a] } (.archive st.archives.length)

def addDisk (st : Storage) : Storage × Volume := st.handle .disk

/-! ## Files -/

def files (st : Storage) (slot : Nat) : Files := (st.memories[slot]?).getD .empty

theorem files_set {st : Storage} {slot : Nat} (h : slot < st.memories.length) (f : Files) (n : Nat) :
    files { st with memories := st.memories.set slot f } n =
      if n = slot then f else st.files n := by
  unfold files
  split
  · rename_i hn
    rw [hn, List.getElem?_set_self h]
    rfl
  · rename_i hn
    rw [List.getElem?_set_ne (Ne.symm hn)]

def archive (st : Storage) (slot : Nat) : Archive := (st.archives[slot]?).getD ⟨[]⟩

def read (st : Storage) (v : Volume) (path : String) : Except Error ByteArray :=
  match v.medium with
  | .memory slot =>
    match (st.files slot).find? path with
    | some content => .ok content
    | none => .error (.notFound path)
  | .archive slot => (st.archive slot).read path
  | .disk => st.disk.read path

/-- The text of a file, whatever its bytes are. -/
def readText (st : Storage) (v : Volume) (path : String) : Except Error String :=
  (st.read v path).map Text.ofBytes

def write (st : Storage) (v : Volume) (path : String) (content : ByteArray) :
    Except Error Storage :=
  match v.medium with
  | .memory slot =>
    .ok { st with memories := st.memories.set slot ((st.files slot).insert path content) }
  | .archive _ => .error (.readOnly path)
  | .disk => (st.disk.write path content).map fun disk => { st with disk }

/-- The names of what a directory holds. -/
def list (st : Storage) (v : Volume) (path : String) : Except Error (List String) :=
  match v.medium with
  | .memory slot => .ok ((st.files slot).list path)
  | .archive slot => .ok ((st.archive slot).list path)
  | .disk => st.disk.list path

def found (path : String) : Option FileKind → Except Error FileKind
  | some kind => .ok kind
  | none => .error (.notFound path)

def stat (st : Storage) (v : Volume) (path : String) : Except Error FileKind :=
  match v.medium with
  | .memory slot => found path ((st.files slot).stat? path)
  | .archive slot => found path ((st.archive slot).stat? path)
  | .disk => (st.disk.isDirectory path).map fun b => if b then .directory else .file

def isDirectory (st : Storage) (v : Volume) (path : String) : Except Error Bool :=
  (st.stat v path).map (· = .directory)

/-- The length of the longest of some names. -/
def longest (names : List String) : Nat := (names.map String.length).foldl max 0

/-- More levels than directories of a volume can nest below one another, unless one holds itself
under the name of a single dot. -/
def depth (st : Storage) (v : Volume) : Nat :=
  match v.medium with
  | .memory slot => longest (st.files slot).keys + 2
  | .archive slot => longest ((st.archive slot).members.map (·.name)) + 2
  | .disk => st.disk.root.depth + 2

end Storage

end Bindery
