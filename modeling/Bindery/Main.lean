import Bindery.Cli.Run

/-!
The command line: reads from the file system what a command may need, carries the command out on
that, and writes what came of it. No programs are started from here, so nothing can be compiled.
-/

namespace Bindery.Cli

def usage : String :=
  "Usage: coqpack [OPTIONS] <COMMAND>\n\nCommands:\n" ++
  "  ls DIR       List the logical modules of a project\n" ++
  "  deps DIR     Print the package manifest of a project\n" ++
  "  package DIR  Package existing compiled artifacts\n" ++
  "  build DIR    Compile sources through a worker process, then optionally package"

/-- How deep directories are read. -/
def depthLimit : Nat := 256

/-- The file or directory of a path through so many levels; below them files are left empty. -/
def readNode : Nat → String → IO Disk.Node
  | depth, path => do
    let entries ← try some <$> (← IO.FS.realPath path).readDir catch _ => pure none
    match entries, depth with
    | some entries, depth + 1 =>
      let nodes ← entries.toList.mapM fun e => do
        return (e.fileName, ← readNode depth (path ++ "/" ++ e.fileName))
      return .directory (Table.ofList nodes).entries
    | some _, 0 => return .empty
    | none, 0 => return .file .empty
    | none, _ + 1 => return .file (← try IO.FS.readBinFile path catch _ => pure .empty)

/-- The names on the way from the root to what a path leads to. -/
def realPlace? (path : String) : IO (Option (List String)) := do
  try return some (Path.steps (← IO.FS.realPath path).toString) catch _ => return none

/-- Puts onto a disk what a path leads to. -/
def readOnto (d : Disk) (depth : Nat) (path : String) : IO Disk := do
  let path := if path = "" then "." else path
  match ← realPlace? path with
  | some place => return { d with root := d.root.set place (← readNode depth path) }
  | none => return d

/-- The directory in which a command writes. -/
def outputDirectory : Action → String
  | .package (some file) _ _ | .build _ _ (some file) _ _ => Path.dirname file
  | _ => ""

def diskFor (i : Invocation) : IO Disk := do
  let d := Disk.withCurrent ((← realPlace? ".").getD [])
  let d ← readOnto d 1 (outputDirectory i.action)
  let d ← readOnto d depthLimit i.directory
  match i.config with
  | some config => readOnto d 1 config
  | none => return d

def noTransport : Transport Empty where
  send _ s := s.remote.elim
  receive s := s.remote.elim
  pending s := s.remote.elim
  pending_lt {s} _ _ _ := s.remote.elim

def noWorkers : Workers Empty where
  transport := noTransport
  start _ program _ := .error (.channel (.notStarted program "programs are not started from here"))

/-- Writes the files that a command has changed. -/
def writeChanges (before after : Disk) : IO Unit := do
  let known := before.root.files []
  for (names, content) in after.root.files [] do
    if known.lookup names ≠ some content then
      IO.FS.writeBinFile ("/" ++ "/".intercalate names) content

def execute (i : Invocation) : IO UInt32 := do
  let d ← diskFor i
  let r := run noWorkers d i
  writeChanges d r.storage.disk
  r.output.forM IO.println
  r.notes.forM IO.eprintln
  match r.failure with
  | some f => IO.eprintln ("Error: " ++ "\n\nCaused by:\n    ".intercalate f.messages)
  | none => pure ()
  return r.exitCode.toUInt32

end Bindery.Cli

def main (args : List String) : IO UInt32 := do
  match Bindery.Cli.parse args with
  | .ok i => Bindery.Cli.execute i
  | .error .help => IO.println Bindery.Cli.usage; return 0
  | .error .version => IO.println Bindery.Cli.versionText; return 0
  | .error .invalid => IO.eprintln Bindery.Cli.usage; return 2
