import Bindery.Text.Split

/-!
# Paths

Paths are texts with `/` between their parts. `join` puts segments together in normal form: no
part is empty or a single dot, and a slash leads exactly if it leads the first segment that is not
empty.
-/

namespace Bindery.Path

/-- The parts of a path that name something: neither empty nor a single dot. -/
def steps (path : String) : List String := (Text.pieces '/' path).filter fun p => p ≠ "" ∧ p ≠ "."

def startsAtRoot (path : String) : Bool := path.toList.head? = some '/'

/-- Whether the first segment that is not empty starts at the root. -/
def isAbsolute (segments : List String) : Bool :=
  match segments.find? (· ≠ "") with
  | some s => startsAtRoot s
  | none => false

def join (segments : List String) : String :=
  (if isAbsolute segments then "/" else "") ++ "/".intercalate (segments.flatMap steps)

/-- A path without the slashes at its end. -/
def trimmed (path : String) : List Char := Text.trimEnd (· = '/') path.toList

/-- All but the last part; empty if there is only one. -/
def dirname (path : String) : String :=
  match Text.splitLast? '/' (trimmed path) with
  | some ([], _) => "/"
  | some (dir, _) => String.ofList dir
  | none => ""

/-- The last part. -/
def basename (path : String) : String :=
  match Text.splitLast? '/' (trimmed path) with
  | some (_, base) => String.ofList base
  | none => String.ofList (trimmed path)

/-- The end of the last part from its last dot on, if something stands before that dot. -/
def extension? (path : String) : Option String :=
  match Text.splitLast? '.' (basename path).toList with
  | some (_ :: _, ext) => some ("." ++ String.ofList ext)
  | _ => none

end Bindery.Path
