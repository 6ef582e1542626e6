import Bindery.Build.Position
import Bindery.Project.Basic

/-!
# Failure reports

A report says which source failed and why. If the compiler named a place, the report has it by
line and column, found in the source that was staged as the named file.
-/

namespace Bindery

/-- A compiler's failure at a place of a source. -/
structure Diagnostic where
  /-- The file without the directory in which it was staged. -/
  file : String
  message : String
  start : Option Position
  stop : Option Position
  deriving DecidableEq, Repr

structure Report where
  file : String
  message : String
  /-- The reply that reported the failure, if one did. -/
  reply : Option Reply
  diagnostic : Option Diagnostic
  deriving DecidableEq

namespace Diagnostic

/-- The logical path of a source that is staged under a file name. -/
def logical? (file : String) : Option Logical :=
  (Text.before? sourceExtension file).map fun stem =>
    Logical.ofDotted (String.ofList (stem.toList.map fun c => if c = '/' then '.' else c))

/-- The text of a staged file: of the source with its logical path, else of the file of that name
on the volume of the project. -/
def sourceText (st : Storage) (input : Project) (file : String) : Except Error String :=
  let found := do
    let logical ← logical? file
    let m ← (input.sources st).find? (·.logical = logical)
    return (← m.volume, m.physical)
  match found with
  | some (v, physical) => st.readText v physical
  | none => st.readText input.volume file

/-- The position of an offset; beyond the end of the text it is that of the end. -/
def positionIn (source : String) (offset : Nat) : Position :=
  .ofOffset source (min offset source.utf8ByteSize)

def ofFailure (st : Storage) (input : Project) (root : String) (f : CompilerFailure) :
    Diagnostic :=
  match f.span with
  | none => ⟨"", f.message, none, none⟩
  | some span =>
    let file := (Text.after? root span.file).getD span.file
    match sourceText st input file with
    | .ok source =>
      ⟨file, f.message, some (positionIn source span.start), some (positionIn source span.stop)⟩
    | .error _ => ⟨file, f.message, none, none⟩

def text (d : Diagnostic) : String :=
  let line := match d.start with
    | some p => toString (p.line + 1)
    | none => "?"
  "at " ++ d.file ++ ":" ++ line ++ ": " ++ d.message

end Diagnostic

namespace Report

/-- The report of an error at a source of a project that is staged below a root. -/
def ofError (st : Storage) (input : Project) (root file : String) (e : Error) : Report :=
  let reply := match e with
    | .failure r => some r
    | _ => none
  let diagnostic := match reply with
    | some (.compilerFailure f) => some (Diagnostic.ofFailure st input root f)
    | _ => none
  ⟨file, e.text, reply, diagnostic⟩

def text (r : Report) : String :=
  match r.diagnostic with
  | some d => d.text
  | none => r.file ++ ": " ++ r.message

end Report

end Bindery
