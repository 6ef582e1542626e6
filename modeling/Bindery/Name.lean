import Bindery.Text.Split

/-!
# Names of modules

A module has a logical path, a list of components; written as one text they are joined by dots. A
file carries a module if its name is a stem followed by one of the module extensions.
-/

namespace Bindery

/-- The components of a module's name, such as `Foo` and `Bar`. -/
abbrev Logical := List String

namespace Logical

/-- The components of a dotted name; empty ones are dropped. -/
def ofDotted (name : String) : Logical := (Text.pieces '.' name).filter (· ≠ "")

def dotted (logical : Logical) : String := ".".intercalate logical

/-- Whether a name starts with some components and ends with others, or is exactly the one after
the other. -/
def answers (name front back : Logical) (exact : Bool) : Bool :=
  if exact then name = front ++ back else front.isPrefixOf name && back.isSuffixOf name

end Logical

/-- The extension of a source. -/
def sourceExtension : String := ".v"

/-- The extensions of module files, longer ones before those they end in. -/
def moduleExtensions : List String := [".vio", ".cma", ".vo", ".v"]

/-- The name of a module file without its extension. -/
def moduleStem? (file : String) : Option String :=
  match moduleExtensions.findSome? fun e => Text.before? e file with
  | some "" => none
  | stem => stem

end Bindery
