import Bindery.Name
import Bindery.Path
import Bindery.Volume.Basic

/-!
# Records and entries

A record is one file of a module: a source or something compiled from it. An entry registers a
directory whose files are modules below a logical path.
-/

namespace Bindery

/-- One file of a module. A module of an external package is known by name alone. -/
structure Record where
  volume : Option Volume
  logical : Logical
  physical : String
  /-- The package that owns the module. -/
  package : Option String
  deriving DecidableEq, Repr

namespace Record

def dotted (m : Record) : String := m.logical.dotted

def hasExtension (m : Record) (ext : String) : Bool := (Text.before? ext m.physical).isSome

def isSource (m : Record) : Bool := m.hasExtension sourceExtension

/-- The owner of the modules that external packages provide. -/
def externalPackage : String := "+"

def external (logical : Logical) : Record := ⟨none, logical, "", some externalPackage⟩

def isExternal (m : Record) : Bool := m.volume = none && m.package = some externalPackage

/-- The dotted names of some modules. -/
def names (records : List Record) : NameSet := .ofList (records.map dotted)

end Record

/-- A registered directory. -/
structure Entry where
  volume : Volume
  logical : Logical
  physical : String
  package : Option String
  deriving DecidableEq, Repr

namespace Entry

/-- The entry with its path in normal form, so that spellings of one directory are one entry. -/
def normal (e : Entry) : Entry := { e with physical := Path.join [e.physical] }

/-- The entry of a directory in the directory of an entry. -/
def child (e : Entry) (name : String) : Entry :=
  { e with logical := e.logical ++ [name], physical := Path.join [e.physical, name] }

/-- The module that a file of the directory carries. -/
def module? (e : Entry) (file : String) : Option Record :=
  (moduleStem? file).map fun stem =>
    ⟨some e.volume, e.logical ++ [stem], Path.join [e.physical, file], e.package⟩

/-- The modules in the directory; none if it cannot be listed. -/
def modules (st : Storage) (e : Entry) : List Record :=
  match st.list e.volume e.physical with
  | .ok files => files.filterMap e.module?
  | .error _ => []

end Entry

end Bindery
