import Bindery.Search.Index
import Bindery.Search.Packages
import Bindery.Search.Scan

/-!
# Search paths

A search path lists registered directories in order. Modules are enumerated in that order, and a
file belongs to the first entry of its directory. A lookup asks the index if there is one, else
the directories; then the external packages. The index goes when an entry is added.
-/

namespace Bindery

structure SearchPath where
  /-- The volume of directories for which none is given. -/
  volume : Volume
  entries : List Entry
  index : Option Index
  packages : Option Packages
  deriving DecidableEq

namespace SearchPath

def new (volume : Volume) : SearchPath := ⟨volume, [], none, none⟩

/-! ## Registration -/

def append (s : SearchPath) (entries : List Entry) : SearchPath :=
  { s with entries := s.entries ++ entries, index := none }

/-- Registers a directory. -/
def add (s : SearchPath) (e : Entry) : SearchPath := s.append [e.normal]

/-- Registers a directory and those below it, up to an error. -/
def addRecursive (st : Storage) (s : SearchPath) (e : Entry) : SearchPath × Option Error :=
  let scan := e.scan st
  (if scan.entries = [] then s else s.append scan.entries, scan.stopped)

/-- Registers the directories of another search path. -/
def addFrom (s other : SearchPath) : SearchPath := s.append other.entries

/-! ## Enumeration -/

def modules (st : Storage) (s : SearchPath) : List Record := s.entries.flatMap (·.modules st)

/-- The modules that a package owns, or those that none owns. -/
def modulesOf (st : Storage) (s : SearchPath) (package : Option String) : List Record :=
  (s.modules st).filter (·.package = package)

/-! ## Lookup -/

/-- The logical path of a file by the first entry of its directory. -/
def toLogical (s : SearchPath) (file : String) : Option Logical :=
  let base := Path.basename file
  (s.entries.find? (·.physical = Path.join [Path.dirname file])).map fun e =>
    e.logical ++ [(moduleStem? base).getD base]

/-- The modules in the registered directories that answer a query; an exact one has at most one
answer. -/
def findLocal (st : Storage) (s : SearchPath) (front back : Logical) (exact : Bool) :
    List Record :=
  match s.index with
  | some i => i.find front back exact
  | none =>
    if exact then ((s.modules st).find? (·.logical.answers front back true)).toList
    else (s.modules st).filter (·.logical.answers front back false)

/-- The external modules that answer a query. -/
def findExternal (s : SearchPath) (front back : Logical) (exact : Bool) : List Record :=
  match s.packages with
  | some p => (p.answering front back exact).map fun a => .external a.2
  | none => []

/-- The modules that answer a query, external ones last. An exact query has at most one answer. -/
def find (st : Storage) (s : SearchPath) (front back : Logical) (exact : Bool) : List Record :=
  let found := s.findLocal st front back exact ++ s.findExternal front back exact
  if exact then found.take 1 else found

/-- Takes a snapshot of the modules. -/
def createIndex (st : Storage) (s : SearchPath) : SearchPath :=
  { s with index := some (.ofRecords (s.modules st)) }

end SearchPath

end Bindery
