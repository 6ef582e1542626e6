import Bindery.Text.Split

/-!
# Directories told from file names

A volume that stores only the names of files has the directories that the names imply: a directory
is what some name goes on from after a slash, and its children are the next steps of such names.
-/

namespace Bindery.Listing

/-- What the names of the files in a directory start with. -/
def under (dir : String) : String :=
  if dir = "" ∨ dir.toList.getLast? = some '/' then dir else dir ++ "/"

/-- The next step of a name below a directory. -/
def childOf? (dir name : String) : Option String := do
  (Text.pieces '/' (← Text.after? (under dir) name)).find? (· ≠ "")

/-- The children of a directory, in the order in which the names show them first. -/
def children (names : List String) (dir : String) : List String :=
  (names.filterMap (childOf? dir)).eraseDups

/-- Whether a name lies below a directory. -/
def below (dir name : String) : Bool := (Text.after? (under dir) name).any (· ≠ "")

def isDirectory (names : List String) (dir : String) : Bool := names.any (below dir)

end Bindery.Listing
