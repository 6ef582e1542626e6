import Bindery.Error
import Bindery.Path
import Bindery.Table

/-!
# A disk

A tree of directories with a current directory in it. A path is followed part by part: a dot stays,
two dots go up, and nothing can be followed from a file, not even a slash at the end.
-/

namespace Bindery

/-- A file, or a directory with its entries in increasing order of their names. -/
inductive Disk.Node where
  | file (content : ByteArray)
  | directory (entries : List (String × Disk.Node))
  deriving Inhabited

structure Disk where
  root : Disk.Node
  /-- The names on the way from the root to the current directory. -/
  current : List String
  deriving Inhabited

namespace Disk

namespace Node

def empty : Node := .directory []

def child? (name : String) : Node → Option Node
  | .directory entries => (entries.find? (·.1 = name)).map (·.2)
  | .file _ => none

def find? : List String → Node → Option Node
  | [], n => some n
  | name :: r, n => (n.child? name).bind (find? r)

/-- Puts a node at a place of a tree, making directories on the way where nothing is. A file on the
way stays, and the tree with it. -/
def set : Node → List String → Node → Node
  | _, [], node => node
  | .directory entries, name :: r, node =>
    .directory (Table.put name
      ((((Node.directory entries).child? name).getD .empty).set r node) entries)
  | .file content, _ :: _, _ => .file content

mutual

/-- How many levels the node has. -/
def depth : Node → Nat
  | .file _ => 1
  | .directory entries => depths entries + 1

def depths : List (String × Node) → Nat
  | [] => 0
  | (_, n) :: r => max (depth n) (depths r)

end

mutual

/-- The files of a tree with the names on the way to them. -/
def files (here : List String) : Node → List (List String × ByteArray)
  | .file content => [(here, content)]
  | .directory entries => filesOf here entries

def filesOf (here : List String) : List (String × Node) → List (List String × ByteArray)
  | [] => []
  | (name, n) :: r => files (here ++ [name]) n ++ filesOf here r

end

end Node

/-- The longest name of a file or directory, in bytes. -/
def nameLimit : Nat := 255

/-- The longest path, in bytes. -/
def pathLimit : Nat := 4095

def checkPath (path : String) : Except Error Unit :=
  if '\x00' ∈ path.toList then .error (.storage .invalidName)
  else if pathLimit < path.utf8ByteSize then .error (.storage .nameTooLong)
  else .ok ()

/-- Follows one part of a path from a place. -/
def step (d : Disk) (path : String) (here : List String) (part : String) :
    Except Error (List String) :=
  match d.root.find? here with
  | some (.directory entries) =>
    if part = "" ∨ part = "." then .ok here
    else if part = ".." then .ok here.dropLast
    else if nameLimit < part.utf8ByteSize then .error (.storage .nameTooLong)
    else if entries.any (·.1 = part) then .ok (here ++ [part])
    else .error (.notFound path)
  | some (.file _) => .error (.storage .notDirectory)
  | none => .error (.notFound path)

/-- Where the parts of a path start. -/
def start (d : Disk) (path : String) : List String :=
  if Path.startsAtRoot path then [] else d.current

/-- The place that a path leads to. -/
def locate (d : Disk) (path : String) : Except Error (List String) := do
  checkPath path
  (Text.pieces '/' path).foldlM (d.step path) (d.start path)

def lookUp (d : Disk) (path : String) : Except Error Node := do
  match d.root.find? (← d.locate path) with
  | some n => return n
  | none => throw (.notFound path)

def read (d : Disk) (path : String) : Except Error ByteArray := do
  match ← d.lookUp path with
  | .file content => return content
  | .directory _ => throw (.storage .isDirectory)

def list (d : Disk) (path : String) : Except Error (List String) := do
  match ← d.lookUp path with
  | .file _ => throw (.storage .notDirectory)
  | .directory entries => return entries.map (·.1)

def isDirectory (d : Disk) (path : String) : Except Error Bool := do
  match ← d.lookUp path with
  | .file _ => return false
  | .directory _ => return true

/-- Creates or replaces a file in a directory that exists. -/
def write (d : Disk) (path : String) (content : ByteArray) : Except Error Disk := do
  checkPath path
  let parts := Text.pieces '/' (String.ofList (Path.trimmed path))
  let name := parts.getLast?.getD ""
  let dir ← parts.dropLast.foldlM (d.step path) (d.start path)
  let place := dir ++ [name]
  match d.root.find? dir with
  | some (.directory _) =>
    if name = "" ∨ name = "." ∨ name = ".." ∨ path.toList.getLast? = some '/' then
      throw (.storage .isDirectory)
    else if nameLimit < name.utf8ByteSize then throw (.storage .nameTooLong)
    else
      match d.root.find? place with
      | some (.directory _) => throw (.storage .isDirectory)
      | _ => return { d with root := d.root.set place (.file content) }
  | _ => throw (.storage .notDirectory)

/-- The place of a path below the current directory, whatever exists. -/
def below (d : Disk) (path : String) : List String := d.current ++ Path.steps path

/-- Puts a file below the current directory and the directories on the way. -/
def putFile (d : Disk) (path : String) (content : ByteArray) : Disk :=
  { d with root := d.root.set (d.below path) (.file content) }

def putDirectory (d : Disk) (path : String) : Disk :=
  match d.root.find? (d.below path) with
  | some _ => d
  | none => { d with root := d.root.set (d.below path) .empty }

/-- The files below the current directory with their paths from there. -/
def currentFiles (d : Disk) : List (String × ByteArray) :=
  match d.root.find? d.current with
  | some n => (n.files []).map fun (names, content) => ("/".intercalate names, content)
  | none => []

/-- The files below the current directory that another disk does not have there with the same
content. -/
def newFiles (d before : Disk) : List (String × ByteArray) :=
  let known := before.currentFiles
  d.currentFiles.filter fun f => known.lookup f.1 ≠ some f.2

/-- A disk with nothing on it but the current directory. -/
def withCurrent (current : List String) : Disk := ⟨Node.empty.set current .empty, current⟩

end Disk

end Bindery
