import Bindery.Error
import Bindery.Json.Record
import Bindery.Name

/-!
# Declared roots

A document names the directories of a project: below each root some directories, written as dotted
names, and the logical path that precedes theirs.
-/

namespace Bindery

/-- A root's directories and the dotted logical path before them. -/
structure Root where
  leading : Option String
  directories : List String
  deriving DecidableEq, Repr

abbrev Roots := Table Root

namespace Roots

def rootToJson (r : Root) : Json :=
  .obj (("dirpaths", .ofStrings r.directories)
    :: (r.leading.map fun p => ("prefix", Json.str p)).toList)

def toJson (roots : Roots) : Json := .obj (roots.entries.map fun (k, r) => (k, rootToJson r))

open Json

def rootOfRaw (r : Raw) : Except Fault Root := do
  match ← r.record ["prefix", "dirpaths"] with
  | [leading, directories] =>
    return ⟨← Raw.optional Raw.string leading, ← Raw.withDefault Raw.strings [] directories⟩
  | _ => throw .surplus

def ofRaw (r : Raw) : Except Fault Roots := do
  let entries ← (← r.entries).mapM fun (k, v) => return (k, ← rootOfRaw v)
  return Table.ofList entries

/-- The roots that a text declares. -/
def parse (text : String) : Except Error Roots :=
  match Raw.parse text with
  | some r => (ofRaw r).mapError .roots
  | none => .error (.roots .grammar)

end Roots

end Bindery
