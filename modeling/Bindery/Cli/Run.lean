import Bindery.Build.Task
import Bindery.Cli.Arguments

/-!
# Commands

What a command does on a disk: what it prints, what it writes and how it ends. Compiling needs a
worker, a program that is talked to; how one is started is left open here.
-/

namespace Bindery.Cli

/-- A failure, with what was being done. -/
structure Failure where
  context : Option String
  error : Error

/-- What was being done, if that is known, and why it failed. -/
def Failure.messages (f : Failure) : List String := f.context.toList ++ [f.error.text]

/-- What a command leaves behind. -/
structure Result where
  storage : Storage
  output : List String
  /-- What is reported besides the output. -/
  notes : List String
  failure : Option Failure

/-- How workers are started and talked to. -/
structure Workers (ρ : Type) where
  transport : Transport ρ
  start : Disk → String → List String → Except Error ρ

namespace Result

def ok (st : Storage) (output : List String) : Result := ⟨st, output, [], none⟩

def failed (st : Storage) (error : Error) : Result := ⟨st, [], [], some ⟨none, error⟩⟩

/-- One result after another that has not failed. -/
def andThen (r next : Result) : Result :=
  ⟨next.storage, r.output ++ next.output, r.notes ++ next.notes, next.failure⟩

def exitCode (r : Result) : Nat := if r.failure.isSome then 1 else 0

end Result

/-- Why a file of a disk is not started as a program. -/
def startReason (d : Disk) (program : String) : String :=
  if '/' ∈ program.toList then
    match d.locate program with
    | .ok _ => "Permission denied (os error 13)"
    | .error (.storage .notDirectory) => "Not a directory (os error 20)"
    | .error (.storage .nameTooLong) => "File name too long (os error 36)"
    | .error _ => "No such file or directory (os error 2)"
  else "No such file or directory (os error 2)"

/-- The error of a program that is not started. -/
def startError (d : Disk) (program : String) : Error :=
  .channel (.notStarted program (startReason d program))

/-! ## Loading -/

/-- The last component of a path that names something. -/
def fileName? (path : String) : Option String :=
  match (Path.steps path).getLast? with
  | some ".." => none
  | name => name

/-- The name of a project by its directory: the last name on the way to it from the root. -/
def defaultName (d : Disk) (directory : String) : String :=
  let name := match (if directory = "" then none else (d.locate directory).toOption) with
    | some place => place.getLast?
    | none => fileName? directory
  name.getD "out"

/-- The project of an invocation. -/
def load (st : Storage) (i : Invocation) : Storage × Except Failure Project :=
  let (st, v) := st.addDisk
  let p := Project.new (i.name.getD (defaultName st.disk i.directory)) v
  let inContext (text : String) (e : Error) : Failure := ⟨some text, e⟩
  let project : Except Failure Project :=
    match i.config with
    | none => (p.scan st i.directory).mapError (inContext ("Failed to scan " ++ i.directory))
    | some config => do
      let roots ← ((st.readText v config).bind Roots.parse).mapError
        (inContext ("Failed to read declared roots from " ++ config))
      (p.addRoots st roots i.directory).mapError
        (inContext ("Failed to register roots below " ++ i.directory))
  (st, project)

/-! ## Actions -/

/-- Saves a package on the disk. -/
def save (st : Storage) (p : Package) : Result :=
  let (st, v) := st.addDisk
  match p.save st v with
  | (st, none) => ⟨st, [p.file, p.manifestFile], p.skipped.map ("skipped " ++ ·), none⟩
  | (st, some e) => ⟨st, [], p.skipped.map ("skipped " ++ ·), some ⟨none, e⟩⟩

/-- Saves what packaging gave. -/
def saved (st : Storage) : Except Error Package → Result
  | .ok p => save st p
  | .error e => .failed st e

def packaging (st : Storage) (p : Project) (output : Option String) (store legacy : Bool) :
    Result :=
  let style := if store then { Style.standard with method := .store } else Style.standard
  let selection := { Selection.standard with file := output }
  saved st (p.package Plan.ofSources st (if legacy then selection.legacy else selection) style)

/-- A mark, filled up on the left. -/
def mark (text : String) : String :=
  String.ofList (List.replicate (6 - text.length) ' ') ++ text ++ " "

def eventOutput : Event → List String
  | .compiling file => [mark "..." ++ file]
  | .compiled file => [mark "ok" ++ file]
  | .failed file => [mark "FAILED" ++ file]
  | .report _ => []

def eventNotes : Event → List String
  | .report r => [r.text]
  | _ => []

def phaseName : Phase → String
  | .idle => "Idle"
  | .running => "Running"
  | .completed => "Completed"
  | .stopped => "Stopped"
  | .failed => "Failed"

/-- The end of a run that gave an output. -/
def delivered (st : Storage) (t : Task) (out : Project) (output : Option String) : Result :=
  let count := (out.modulesWith st [".vo"]).length
  let line := toString count ++ " modules compiled (" ++ phaseName t.phase ++ ")"
  let package := output.map fun file =>
    saved st (t.package st { Selection.standard with file := some file } .standard)
  (Result.ok st [line]).andThen (package.getD (.ok st []))

variable {ρ : Type} (w : Workers ρ)

def building (st : Storage) (p : Project) (worker : String) (arguments : List String)
    (output : Option String) (root : String) (legacy : Bool) : Result :=
  match w.start st.disk worker arguments with
  | .error e => ⟨st, [], [], some ⟨some ("Failed to start worker " ++ worker), e⟩⟩
  | .ok remote =>
    let (st, v) := st.addMemory .empty
    match (Task.new p root legacy v false).run w.transport none ⟨remote, st, false⟩ with
    | (t, s, result) =>
      let told : Result :=
        ⟨s.storage, t.events.flatMap eventOutput, t.events.flatMap eventNotes, none⟩
      told.andThen (match result with
        | .ok out => delivered s.storage t out output
        | .error (.failed e) => .failed s.storage e
        | .error .stalled => .failed s.storage (.channel (.stated "worker is silent")))

/-- Carries out an action on a project. -/
def act (st : Storage) (p : Project) : Action → Result
  | .list => .ok st (p.names st).toList
  | .deps =>
    match p.manifest Plan.ofSources st with
    | .ok m => .ok st [Json.Layout.text {} m.toJson]
    | .error e => .failed st e
  | .package output store legacy => packaging st p output store legacy
  | .build worker arguments output root legacy =>
    building w st p worker arguments output root legacy

def run (disk : Disk) (i : Invocation) : Result :=
  match load (.empty disk) i with
  | (st, .ok p) => act w st p i.action
  | (st, .error f) => ⟨st, [], [], some f⟩

end Bindery.Cli
