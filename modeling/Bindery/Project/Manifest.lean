import Bindery.Error
import Bindery.Json.Record

/-!
# Manifests

A manifest names a package, the packages it depends on, and its modules, each with the modules it
requires if any are recorded. No list and an empty list are told apart.
-/

namespace Bindery

structure Manifest where
  name : String
  deps : List String
  modules : Table (Option (List String))
  /-- The file of the archive, where the manifest is kept apart from it. -/
  archive : Option String
  deriving DecidableEq

namespace Manifest

/-- The name of the manifest inside an archive. -/
def entryName : String := "coq-pkg.json"

def moduleToJson : Option (List String) → Json
  | some deps => .obj [("deps", .ofStrings deps)]
  | none => .obj []

def toJson (m : Manifest) : Json :=
  .obj ((m.archive.map fun a => ("archive", Json.str a)).toList ++
    [("deps", .ofStrings m.deps),
      ("modules", .obj (m.modules.entries.map fun (k, d) => (k, moduleToJson d))),
      ("name", .str m.name)])

open Json

/-- A module of a manifest: what it requires. -/
def moduleOfRaw (r : Raw) : Except Fault (Option (List String)) := do
  match ← r.record ["deps"] with
  | [deps] => Raw.optional Raw.strings deps
  | _ => throw .surplus

def modulesOfRaw (r : Raw) : Except Fault (Table (Option (List String))) := do
  let entries ← (← r.entries).mapM fun (k, v) => return (k, ← moduleOfRaw v)
  return .ofList entries

def ofRaw (r : Raw) : Except Fault Manifest := do
  match ← r.record ["name", "deps", "modules", "archive"] with
  | [name, deps, modules, archive] =>
    return {
      name := ← Raw.required Raw.string "name" name
      deps := ← Raw.withDefault Raw.strings [] deps
      modules := ← Raw.withDefault modulesOfRaw .empty modules
      archive := ← Raw.optional Raw.string archive }
  | _ => throw .surplus

/-- The manifest that a text holds. -/
def parse (text : String) : Except Fault Manifest :=
  match Raw.parse text with
  | some r => ofRaw r
  | none => .error .grammar

end Manifest

end Bindery
