import Bindery.Json.Basic
import Bindery.Text.Utf8

/-!
# Messages

What is said to a remote compiler and what it answers. A message of any other kind that it sends
is kept as `other`.
-/

namespace Bindery

inductive Command where
  /-- Sets the module to be compiled. -/
  | init (top : String)
  /-- Stages the bytes of a source. -/
  | put (path : String) (content : ByteArray)
  /-- Reads a staged source; answered by `loaded`. -/
  | load (path : String)
  /-- Makes the compiled file; answered by `compiled`. -/
  | compile (path : String)
  /-- Asks for the bytes of a compiled file; answered by `got`. -/
  | get (path : String)
  /-- Loads packages; answered by `packagesLoaded`. -/
  | loadPackages (names : List String)
  deriving DecidableEq

/-- Where in a source a failure lies, in bytes. -/
structure Span where
  file : String
  start : Nat
  stop : Nat
  deriving DecidableEq, Repr

/-- A failure reported by the compiler: its place, its text, and the message as received. -/
structure CompilerFailure where
  span : Option Span
  message : String
  raw : Json
  deriving DecidableEq

inductive Reply where
  | loaded (path : String)
  | compiled (path : String)
  | got (path : String) (content : ByteArray)
  | packagesLoaded
  | jsonFailure (payload : Json)
  | compilerFailure (failure : CompilerFailure)
  | other (tag : String) (args : List Json)
  deriving DecidableEq

/-- The kind of a reply. -/
inductive Reply.Tag where
  | loaded
  | compiled
  | got
  | packagesLoaded
  | jsonFailure
  | compilerFailure
  | other
  deriving DecidableEq, Repr

namespace Reply

def tag : Reply → Tag
  | .loaded _ => .loaded
  | .compiled _ => .compiled
  | .got _ _ => .got
  | .packagesLoaded => .packagesLoaded
  | .jsonFailure _ => .jsonFailure
  | .compilerFailure _ => .compilerFailure
  | .other _ _ => .other

/-- The kinds that report a failure. -/
def Tag.failures : List Tag := [.jsonFailure, .compilerFailure]

def isFailure (r : Reply) : Bool := r.tag ∈ Tag.failures

end Reply

end Bindery
