import Bindery.Name
import Bindery.Table

/-!
# External packages

Packages that exist already compiled, with the modules that each provides.
-/

namespace Bindery

structure Packages where
  modules : Table (List Logical)
  deriving DecidableEq

namespace Packages

def empty : Packages := ⟨.empty⟩

/-- Adds modules, given by their dotted names, to a package. -/
def add (p : Packages) (package : String) (names : List String) : Packages :=
  let before := (p.modules.find? package).getD []
  ⟨p.modules.insert package (before ++ names.map Logical.ofDotted)⟩

/-- The modules that answer a query, each with its package, the packages in order. -/
def answering (p : Packages) (front back : Logical) (exact : Bool) : List (String × Logical) :=
  p.modules.entries.flatMap fun (package, modules) =>
    (modules.filter (·.answers front back exact)).map (package, ·)

/-- The packages that provide the modules answering a query. -/
def providers (p : Packages) (front back : Logical) (exact : Bool) : NameSet :=
  .ofList ((p.answering front back exact).map (·.1))

end Packages

end Bindery
