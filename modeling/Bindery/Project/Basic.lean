import Bindery.Plan.Basic
import Bindery.Project.Manifest
import Bindery.Project.Roots

/-!
# Projects

A project is a set of modules with a name: those that it owns in its search path, or those of an
explicit list. It comes from a scan of a directory, from declared roots or from an archive.
-/

namespace Bindery

structure Project where
  name : String
  volume : Volume
  search : SearchPath
  /-- The packages that the project depends on. -/
  deps : List String
  /-- The explicit list of modules, if one was set. -/
  listed : Option (List Record)
  deriving DecidableEq

namespace Project

def new (name : String) (volume : Volume) : Project := ⟨name, volume, .new volume, [], none⟩

/-! ## Directories -/

/-- Registers a directory of the project's volume below a logical path. -/
def addDirectory (st : Storage) (p : Project) (physical : String) (logical : Logical) :
    Except Error Project :=
  match p.search.addRecursive st ⟨p.volume, logical, physical, some p.name⟩ with
  | (search, none) => .ok { p with search }
  | (_, some e) => .error e

/-- Registers a directory below the empty logical path. -/
def scan (st : Storage) (p : Project) (directory : String) : Except Error Project :=
  p.addDirectory st directory []

/-- The directories that roots declare below a base, each with its logical path. -/
def declared (roots : Roots) (base : String) : List (String × Logical) :=
  roots.entries.flatMap fun (root, spec) =>
    spec.directories.map fun d =>
      let d := Logical.ofDotted d
      (Path.join ([base, root] ++ d), (spec.leading.map Logical.ofDotted).getD [] ++ d)

/-- Registers the directories that roots declare below a base. -/
def addRoots (st : Storage) (p : Project) (roots : Roots) (base : String) :
    Except Error Project :=
  (declared roots base).foldlM (fun p d => p.addDirectory st d.1 d.2) p

/-- The project of a package whose archive is a volume. -/
def ofArchive (st : Storage) (volume : Volume) : Except Error Project := do
  let text ← st.readText volume Manifest.entryName
  let m ← (Manifest.parse text).mapError .json
  let p ← (new m.name volume).scan st ""
  return { p with deps := m.deps }

/-! ## Modules -/

def modules (st : Storage) (p : Project) : List Record :=
  match p.listed with
  | some modules => modules
  | none => p.search.modulesOf st (some p.name)

/-- The modules whose files have one of some extensions. -/
def modulesWith (st : Storage) (p : Project) (extensions : List String) : List Record :=
  (p.modules st).filter fun m => extensions.any m.hasExtension

def sources (st : Storage) (p : Project) : List Record := p.modulesWith st [sourceExtension]

/-- The dotted names of the modules. -/
def names (st : Storage) (p : Project) : NameSet := Record.names (p.modules st)

def list (p : Project) (modules : List Record) : Project := { p with listed := some modules }

/-- The module of a file of the project's volume. -/
def moduleAt (p : Project) (path : String) : Except Error Record :=
  match p.search.toLogical path with
  | some logical => .ok ⟨some p.volume, logical, path, some p.name⟩
  | none => .error (.unmapped path)

/-- Lists modules by their files. -/
def listPaths (p : Project) (paths : List String) : Except Error Project :=
  (paths.mapM p.moduleAt).map p.list

/-! ## Plans and manifests -/

def plan (resolve : Resolver) (st : Storage) (p : Project) : Except Error Plan :=
  resolve st p.search (p.modules st)

/-- The manifest of a project whose modules have been planned. -/
def manifestOf (st : Storage) (p : Project) (plan : Plan) : Manifest where
  name := p.name
  deps := p.deps
  modules := .ofList ((p.names st).toList.map fun n => (n, plan.deps.find? n))
  archive := none

def manifest (resolve : Resolver) (st : Storage) (p : Project) : Except Error Manifest :=
  (p.plan resolve st).map (p.manifestOf st)

/-! ## Copies -/

/-- The file of a source by its logical path. -/
def logicalFile (logical : Logical) : String := "/" ++ "/".intercalate logical ++ sourceExtension

/-- Copies sources to a volume, each to the file of its logical path, up to an error. -/
def copySources (target : Volume) (st : Storage) : List Record → Storage × Option Error
  | [] => (st, none)
  | m :: r =>
    match m.volume with
    | none => copySources target st r
    | some v =>
      match (st.read v m.physical).bind (st.write target (logicalFile m.logical)) with
      | .ok st => copySources target st r
      | .error e => (st, some e)

/-- Copies the sources to a volume; the project over the copy. -/
def copyLogical (st : Storage) (p : Project) (target : Volume) : Storage × Except Error Project :=
  match copySources target st (p.sources st) with
  | (st, none) => (st, { new p.name target with deps := p.deps }.scan st "/")
  | (st, some e) => (st, .error e)

end Project

end Bindery
