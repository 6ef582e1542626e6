import Bindery.Error
import Bindery.Path

/-!
# File names of packages

An archive gets the package extension if its name has none, and its manifest stands beside it
under the same name with another extension.
-/

namespace Bindery.FileName

def packageExtension : String := ".coq-pkg"

def package (file : String) : String :=
  if (Path.extension? file).isSome then file else file ++ packageExtension

/-- A text, given backwards, without so many bytes at its end; none if that splits a character. -/
def dropBytes : Nat → List Char → Option (List Char)
  | 0, cs => some cs
  | _ + 1, [] => none
  | n + 1, c :: r => if c.utf8Size ≤ n + 1 then dropBytes (n + 1 - c.utf8Size) r else none

/-- The name of the manifest beside an archive. The archive's name loses as many bytes as its
extension has, slashes at its end counted. -/
def manifest (archive : String) : Except Error String :=
  match Path.extension? archive with
  | none => .ok (archive ++ ".json")
  | some ext =>
    match dropBytes ext.utf8ByteSize archive.toList.reverse with
    | some cs => .ok (String.ofList cs.reverse ++ ".json")
    | none => .error (.brokenName archive)

end Bindery.FileName
