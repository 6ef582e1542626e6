import Bindery.Build.Channel
import Bindery.Build.Report
import Bindery.Project.Package

/-!
# Compile tasks

A task compiles the sources of a project one after the other, in the order of its plan: it stages
a source, has it loaded and compiled, and fetches what came out unless the remote has written it
already. The first failure ends the run. A stop takes effect between two sources.
-/

namespace Bindery

/-- What a task tells about its progress. -/
inductive Event where
  | compiling (file : String)
  | compiled (file : String)
  /-- Comes before `failed`. -/
  | report (r : Report)
  | failed (file : String)
  deriving DecidableEq

/-- Where the run of a task is. -/
inductive Phase where
  | idle
  | running
  | completed
  | stopped
  | failed
  deriving DecidableEq, Repr

def Phase.isFinished (p : Phase) : Bool := p ∈ [.completed, .stopped, .failed]

structure Task where
  input : Project
  resolve : Resolver
  /-- The directory below which the remote keeps sources and what comes of them. -/
  root : String
  /-- Whether the output is packaged in the older form. -/
  legacy : Bool
  /-- Where compiled files end up. -/
  volume : Volume
  /-- Whether the remote writes compiled files to the volume. -/
  shared : Bool
  /-- The sources attempted so far. -/
  infiles : List Record
  /-- The compiled files so far. -/
  outfiles : List Record
  events : List Event
  phase : Phase
  output : Option Project

namespace Task

def new (input : Project) (root : String) (legacy : Bool) (volume : Volume) (shared : Bool) :
    Task where
  input
  resolve := Plan.ofSources
  root
  legacy
  volume
  shared
  infiles := []
  outfiles := []
  events := []
  phase := .idle
  output := none

def emit (t : Task) (e : Event) : Task := { t with events := t.events ++ [e] }

/-! ## Events -/

/-- How many events are kept for a listener that does not listen. -/
def eventLimit : Nat := 256

/-- The events since the last time, how many older ones are lost, and the task without them. -/
def collect (t : Task) : List Event × Nat × Task :=
  let lost := t.events.length - eventLimit
  (t.events.drop lost, lost, { t with events := [] })

/-! ## Compiling -/

/-- The file as which a source is staged. -/
def staged (t : Task) (m : Record) : String :=
  Path.join [t.root, "/".intercalate m.logical ++ sourceExtension]

/-- The file that compiling a source gives. -/
def artifact (t : Task) (m : Record) : String := t.staged m ++ "o"

/-- The steps that compile a source. -/
def steps (t : Task) (m : Record) (source : ByteArray) : List Step :=
  [.send (.init m.dotted), .send (.put (t.staged m) source), .send (.load (t.staged m)),
    .await .loaded, .send (.compile (t.artifact m)), .await .compiled]

variable {ρ : Type} (tr : Transport ρ)

/-- Fetches a compiled file and keeps it. -/
def fetch (t : Task) (m : Record) (s : Site ρ) : Site ρ × Except Halt Unit :=
  match tr.perform [.send (.get (t.artifact m)), .await .got] s with
  | (s, .error halt) => (s, .error halt)
  | (s, .ok (.got _ content :: _)) =>
    match s.storage.write t.volume (t.artifact m) content with
    | .ok storage => ({ s with storage }, .ok ())
    | .error e => (s, .error (.failed e))
  | (s, .ok _) => (s, .ok ())

/-- Compiles a source up to what is kept of it. -/
def compileSteps (t : Task) (m : Record) (s : Site ρ) : Site ρ × Except Halt Unit :=
  match m.volume with
  | none => (s, .error (.failed (.notFound m.physical)))
  | some v =>
    match s.storage.read v m.physical with
    | .error e => (s, .error (.failed e))
    | .ok source =>
      match tr.perform (t.steps m source) s with
      | (s, .error halt) => (s, .error halt)
      | (s, .ok _) => if t.shared then (s, .ok ()) else t.fetch tr m s

/-- Compiles a source and tells of it. -/
def compile (t : Task) (m : Record) (s : Site ρ) : Task × Site ρ × Except Halt Unit :=
  let t := emit { t with infiles := t.infiles ++ [m] } (.compiling m.physical)
  match t.compileSteps tr m s with
  | (s, .ok ()) =>
    let out : Record := ⟨some t.volume, m.logical, t.artifact m, none⟩
    (emit { t with outfiles := t.outfiles ++ [out] } (.compiled m.physical), s, .ok ())
  | (s, .error (.failed e)) =>
    let report := Report.ofError s.storage t.input t.root m.physical e
    ((t.emit (.report report)).emit (.failed m.physical), s, .error (.failed e))
  | (s, .error .stalled) => (t, s, .error .stalled)

/-- Compiles the sources among some modules in order, up to a stop or a failure. -/
def compileAll (t : Task) : List Record → Site ρ → Task × Site ρ × Except Halt Unit
  | [], s => (t, s, .ok ())
  | m :: r, s =>
    let s := tr.meanwhile s
    if s.stopped then ({ t with phase := .stopped }, s, .ok ())
    else if m.isSource then
      match t.compile tr m s with
      | (t, s, .ok ()) => compileAll t r s
      | halted => halted
    else compileAll t r s

/-- Has the packages loaded that a plan needs. -/
def loadPackages (packages : List String) (s : Site ρ) : Site ρ × Except Halt (List Reply) :=
  if packages = [] then (s, .ok [])
  else
    tr.perform [.send (.loadPackages (packages.map ("+" ++ ·))), .await .packagesLoaded] s

/-- Plans the project and compiles it. -/
def build (t : Task) (s : Site ρ) : Task × Site ρ × Except Halt Unit :=
  match t.input.plan t.resolve s.storage with
  | .error e => (t, s, .error (.failed e))
  | .ok plan =>
    match loadPackages tr plan.external.toList s with
    | (s, .error halt) => (t, s, .error halt)
    | (s, .ok _) => t.compileAll tr plan.order s

/-! ## Output -/

/-- The name of the output. -/
def outputName (t : Task) (name : Option String) : String :=
  name.getD (if t.input.name = "" then "out" else t.input.name)

/-- The search path of the output: what is below the root, if it is a directory. -/
def outputSearch (st : Storage) (t : Task) : Except Error SearchPath :=
  match st.isDirectory t.volume t.root with
  | .ok true =>
    match (SearchPath.new t.volume).addRecursive st ⟨t.volume, [], t.root, none⟩ with
    | (search, none) => .ok search
    | (_, some e) => .error e
  | .ok false => .ok (.new t.volume)
  | .error e => if e.isNotFound then .ok (.new t.volume) else .error e

/-- The project of the attempted sources and the compiled files, which it owns. -/
def outputProject (st : Storage) (t : Task) (name : Option String) : Except Error Project :=
  (t.outputSearch st).map fun search => {
    name := t.outputName name
    volume := t.volume
    search
    deps := t.input.deps
    listed := some ((t.infiles ++ t.outfiles).map fun m =>
      { m with package := some (t.outputName name) }) }

/-- The output, which the task keeps. -/
def deliver (st : Storage) (t : Task) (name : Option String) : Task × Except Error Project :=
  match t.outputProject st name with
  | .ok p => ({ t with output := some p }, .ok p)
  | .error e => (t, .error e)

/-- The output of a run that has ended. -/
def finish (t : Task) (name : Option String) (s : Site ρ) : Task × Site ρ × Except Halt Project :=
  match t.deliver s.storage name with
  | (t, .ok p) => (t, s, .ok p)
  | (t, .error e) => (t, s, .error (.failed e))

/-- Compiles the project. A run that is stopped gives what there is by then. -/
def run (t : Task) (name : Option String) (s : Site ρ) : Task × Site ρ × Except Halt Project :=
  let s := tr.meanwhile s
  if s.stopped then finish { t with phase := .stopped } name s
  else
    match build tr { t with phase := .running } s with
    | (t, s, .ok ()) =>
      finish { t with phase := if t.phase = .running then .completed else t.phase } name s
    | (t, s, .error (.failed e)) => ({ t with phase := .failed }, s, .error (.failed e))
    | (t, s, .error .stalled) => (t, s, .error .stalled)

/-- Packages the last output. -/
def package (st : Storage) (t : Task) (selection : Selection) (style : Style) :
    Except Error Package :=
  match t.output with
  | some p => p.package t.resolve st (if t.legacy then selection.legacy else selection) style
  | none => .error .noOutput

end Task

end Bindery
