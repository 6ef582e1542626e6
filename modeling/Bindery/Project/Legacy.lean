import Bindery.Name
import Bindery.Path
import Bindery.Project.Manifest

/-!
# Legacy manifests

An older shape of the manifest lists the modules by the directory of their compiled files, and
apart from them the modules each one requires.
-/

namespace Bindery

/-- The modules of one directory: its logical path and the names of the compiled files. -/
structure LegacyGroup where
  path : Logical
  files : List String
  deriving DecidableEq, Repr

structure LegacyManifest where
  desc : String
  deps : List String
  archive : Option String
  groups : List LegacyGroup
  moduleDeps : Table (List String)
  deriving DecidableEq

namespace LegacyManifest

/-- The dotted path of a module's directory and its own name in it. -/
def splitName (name : String) : String × String :=
  match Text.splitLast? '.' name.toList with
  | some (dir, base) => (String.ofList dir, String.ofList base)
  | none => ("", name)

/-- Adds a member to its group; a group that is not there yet comes last. -/
def addMember (group member : String) : List (String × List String) → List (String × List String)
  | [] => [(group, [member])]
  | (g, members) :: r =>
    if g = group then (g, members ++ [member]) :: r else (g, members) :: addMember group member r

/-- The modules by directory, the directories in the order in which they first appear. -/
def groupNames (names : List String) : List (String × List String) :=
  names.foldl (fun groups name => addMember (splitName name).1 (splitName name).2 groups) []

/-- The legacy shape of a manifest. Its archive is the given file unless the manifest names one. -/
def ofManifest (m : Manifest) (file : String) : LegacyManifest where
  desc := m.name
  deps := m.deps
  archive := m.archive <|> if file = "" then none else some (Path.basename file)
  groups := (groupNames m.modules.keys).map fun (dir, members) =>
    ⟨.ofDotted dir, members.map (· ++ ".vo")⟩
  moduleDeps := .ofList (m.modules.entries.filterMap fun (k, deps) => deps.map (k, ·))

def groupToJson (g : LegacyGroup) : Json :=
  .obj [("cma_files", .arr []), ("pkg_id", .ofStrings g.path),
    ("vo_files", .arr (g.files.map fun f => .arr [.str f, .null]))]

def toJson (m : LegacyManifest) : Json :=
  .obj [("archive", (m.archive.map Json.str).getD .null), ("deps", .ofStrings m.deps),
    ("desc", .str m.desc),
    ("modDeps", .obj (m.moduleDeps.entries.map fun (k, deps) => (k, .ofStrings deps))),
    ("pkgs", .arr (m.groups.map groupToJson))]

end LegacyManifest

end Bindery
