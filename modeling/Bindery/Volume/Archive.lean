import Bindery.Volume.Listing
import Bindery.Zip.Read

/-!
# Archives as volumes

An archive holds members in order, each name once. A member whose name ends in a slash stands for
a directory. Paths may start with slashes, which are not part of a name.
-/

namespace Bindery

structure Archive where
  members : List Zip.Member

namespace Archive

/-- Adds a member; one of that name keeps its place and takes the new header and content. -/
def addMember (m : Zip.Member) : List Zip.Member → List Zip.Member
  | [] => [m]
  | n :: r => if n.name = m.name then m :: r else n :: addMember m r

def ofMembers (members : List Zip.Member) : Archive :=
  ⟨members.foldl (fun ms m => addMember m ms) []⟩

def ofBytes (bytes : ByteArray) : Except Error Archive := (Zip.read bytes).map ofMembers

/-- Whether the member of a name stands for a directory. -/
def isDirectoryName (name : String) : Bool :=
  name.toList.getLast? = some '/' || name.toList.getLast? = some '\\'

def withoutSlashes (name : String) : String := String.ofList (Text.trimEnd (· = '/') name.toList)

/-- The names of the files, in the order of the archive. -/
def files (a : Archive) : List String :=
  (a.members.map (·.name)).filter fun n => !isDirectoryName n

/-- The directories that have a member of their own. -/
def directories (a : Archive) : List String :=
  ((a.members.map (·.name)).filter isDirectoryName).map withoutSlashes

/-- The name of a member that a path stands for. -/
def memberName (path : String) : String := String.ofList (path.toList.dropWhile (· = '/'))

def read (a : Archive) (path : String) : Except Error ByteArray :=
  match a.members.find? (·.name = memberName path) with
  | some m => m.content
  | none => .error (.notFound path)

def list (a : Archive) (path : String) : List String := Listing.children a.files (memberName path)

def isFile (a : Archive) (path : String) : Bool := memberName path ∈ a.files

def isDirectory (a : Archive) (path : String) : Bool :=
  withoutSlashes (memberName path) ∈ a.directories || Listing.isDirectory a.files (memberName path)

end Archive

end Bindery
