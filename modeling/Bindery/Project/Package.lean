import Bindery.Json.Layout
import Bindery.Project.Basic
import Bindery.Project.FileName
import Bindery.Project.Legacy
import Bindery.Zip.Write

/-!
# Packages

A package is an archive with the manifest and the files of the modules, each at its logical path,
and a copy of the manifest beside it. A file that cannot be read is skipped, and of two files for
one place the first is taken.
-/

namespace Bindery

/-- What goes into an archive for a module. -/
structure Part where
  record : Record
  /-- The extension in the archive; without one, that of the file. -/
  extension : Option String
  /-- The content; without one, that of the file. -/
  payload : Option ByteArray
  deriving DecidableEq

namespace Part

def ofRecord (m : Record) : Part := ⟨m, none, none⟩

/-- The place in the archive; none without an extension. -/
def name? (p : Part) : Option String :=
  (p.extension <|> Path.extension? p.record.physical).map fun e =>
    "/".intercalate p.record.logical ++ e

def content (st : Storage) (p : Part) : Except Error ByteArray :=
  match p.payload, p.record.volume with
  | some bytes, _ => .ok bytes
  | none, some v => st.read v p.record.physical
  | none, none => .error (.notFound p.record.physical)

def pluginExtension : String := ".cma"

/-- The parts of a module, where a plugin has two: an empty file, and the script beside it. -/
def splitPlugin (m : Record) : List Part :=
  if m.hasExtension pluginExtension then
    [⟨m, some pluginExtension, some .empty⟩,
      ⟨{ m with physical := m.physical ++ ".js" }, some (pluginExtension ++ ".js"), none⟩]
  else [ofRecord m]

end Part

/-- How a package is written. -/
structure Style where
  layout : Json.Layout
  method : Zip.Method
  time : Zip.Time

namespace Style

def standard : Style := ⟨{}, .deflate, ⟨2000, 1, 1, 0, 0, 0⟩⟩

/-- The stamp of the members of the archive. -/
def stamp (s : Style) : Except Error Zip.Stamp :=
  if s.time.IsValid then .ok ⟨s.method, s.time⟩ else .error (.timestamp s.time.text)

end Style

/-- What is packaged. -/
structure Selection where
  /-- The name of the archive; without one, that of the project. -/
  file : Option String
  extensions : List String
  /-- The parts of a module. -/
  parts : Record → List Part
  /-- The manifest as written beside an archive of some name. -/
  describe : Manifest → String → Json

namespace Selection

def standard : Selection where
  file := none
  extensions := [".vo", ".cma"]
  parts m := [.ofRecord m]
  describe m _ := m.toJson

def withPlugins (s : Selection) : Selection := { s with parts := Part.splitPlugin }

def withLegacyManifest (s : Selection) : Selection :=
  { s with describe := fun m file => (LegacyManifest.ofManifest m file).toJson }

/-- The older form of packages. -/
def legacy (s : Selection) : Selection := s.withPlugins.withLegacyManifest

end Selection

/-- The members of an archive, and the files that were skipped. -/
structure Contents where
  members : List Zip.NewMember
  skipped : List String
  deriving DecidableEq

namespace Contents

def names (c : Contents) : List String := c.members.map (·.name)

def skip (c : Contents) (p : Part) : Contents :=
  { c with skipped := c.skipped ++ [p.record.physical] }

def add (st : Storage) (c : Contents) (p : Part) : Contents :=
  match p.name? with
  | none => c.skip p
  | some name =>
    if name ∈ c.names then c
    else
      match p.content st with
      | .ok content => { c with members := c.members ++ [⟨name, content⟩] }
      | .error _ => c.skip p

end Contents

structure Package where
  file : String
  archive : ByteArray
  manifestFile : String
  manifest : String
  skipped : List String

namespace Package

/-- Writes the manifest and then the archive to a volume. -/
def save (st : Storage) (p : Package) (v : Volume) : Storage × Option Error :=
  match st.write v p.manifestFile p.manifest.toUTF8 with
  | .error e => (st, some e)
  | .ok st =>
    match st.write v p.file p.archive with
    | .error e => (st, some e)
    | .ok st => (st, none)

end Package

namespace Project

/-- What an archive of the modules with some extensions holds, after a manifest if one is given. -/
def contents (st : Storage) (p : Project) (manifest : Option String) (extensions : List String)
    (parts : Record → List Part) : Contents :=
  ((p.modulesWith st extensions).flatMap parts).foldl (·.add st ·)
    ⟨(manifest.map fun text => ⟨Manifest.entryName, text.toUTF8⟩).toList, []⟩

def package (resolve : Resolver) (st : Storage) (p : Project) (s : Selection) (style : Style) :
    Except Error Package := do
  let file := FileName.package (s.file.getD p.name)
  let manifestFile ← FileName.manifest file
  let manifest := style.layout.text (s.describe (← p.manifest resolve st) file)
  let stamp ← style.stamp
  let c := p.contents st (some manifest) s.extensions s.parts
  return ⟨file, Zip.write stamp c.members, manifestFile, manifest, c.skipped⟩

end Project

end Bindery
