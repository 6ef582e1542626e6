import Bindery.Plan.Graph
import Bindery.Require
import Bindery.Search.Path

/-!
# Plans

A plan orders modules so that each comes after those that it requires. A requirement is looked up
through the search path; of several answers the one of the same package goes before other modules
of the project, and those before external ones. What is not found is left out.
-/

namespace Bindery

structure Plan where
  order : List Record
  /-- The external packages that provide required modules. -/
  external : NameSet
  /-- What each module requires; a module that requires nothing is not in it. -/
  deps : Table (List String)
  deriving DecidableEq

/-- Orders modules that are looked up through a search path. -/
abbrev Resolver := Storage → SearchPath → List Record → Except Error Plan

namespace Plan

/-- The names of the modules in their order, each once. -/
def orderNames (p : Plan) : List String := (p.order.map (·.dotted)).eraseDups

/-- The module that a requirement turns out to be. -/
inductive Target where
  | here (name : String)
  | external (name : String) (packages : NameSet)
  deriving DecidableEq

namespace Target

def name : Target → String
  | .here name => name
  | .external name _ => name

/-- The name of a module that is not external. -/
def local? : Target → Option String
  | .here name => some name
  | .external _ _ => none

/-- The packages that provide an external module. -/
def packages : Target → List String
  | .here _ => []
  | .external _ packages => packages.toList

end Target

/-! ## Requirements -/

/-- How far an answer is from a module; the nearest is taken. -/
def distance (m answer : Record) : Nat :=
  if answer.isExternal then 2 else if answer.package = m.package then 0 else 1

/-- The first of the answers that are nearest to a module. -/
def nearest? (m : Record) : List Record → Option Record
  | [] => none
  | a :: r =>
    match nearest? m r with
    | some b => if distance m b < distance m a then some b else some a
    | none => some a

/-- What a requirement finds, and whether it finds it under its full name. -/
def answers (st : Storage) (s : SearchPath) (r : Requirement) : List Record × Bool :=
  let exact := if r.origin = [] then [] else s.find st r.origin r.name true
  if exact = [] then (s.find st r.origin r.name false, false) else (exact, true)

/-- The module that a requirement of a module means. It is never of the same logical path. -/
def target? (st : Storage) (s : SearchPath) (m : Record) (r : Requirement) : Option Target :=
  let (found, exact) := answers st s r
  (nearest? m (found.filter (·.logical ≠ m.logical))).map fun a =>
    if a.isExternal then
      .external a.dotted ((s.packages.map (·.providers r.origin r.name exact)).getD .empty)
    else .here a.dotted

/-- What a source requires, in the order in which it says so. -/
def targets (st : Storage) (s : SearchPath) (m : Record) (source : String) : List Target :=
  (Requirement.parse source).filterMap (target? st s m)

/-- What the sources among some modules require. -/
def requirements (st : Storage) (s : SearchPath) :
    List Record → Except Error (List (Record × List Target))
  | [] => .ok []
  | m :: r =>
    match m.volume with
    | some v =>
      if m.isSource then do
        let source ← st.readText v m.physical
        return (m, targets st s m source) :: (← requirements st s r)
      else requirements st s r
    | none => requirements st s r

/-! ## Order -/

/-- The graph of some modules; an edge leads from a required module to the one that requires it. -/
def graph (modules : List Record) (required : List (Record × List Target)) : Graph :=
  let nodes := (modules.map (·.dotted)).eraseDups
  required.foldl (fun g (m, targets) =>
    ((targets.filterMap (·.local?)).filter (· ∈ nodes)).foldl (·.addEdge · m.dotted) g) ⟨nodes, []⟩

/-- Appends the names that are not there yet. -/
def addNames (names more : List String) : List String :=
  more.foldl (fun names n => if n ∈ names then names else names ++ [n]) names

/-- The names of what each module requires. -/
def depsTable (required : List (Record × List Target)) : Table (List String) :=
  required.foldl (fun t (m, targets) =>
    if targets = [] then t
    else t.insert m.dotted (addNames ((t.find? m.dotted).getD []) (targets.map (·.name)))) .empty

/-- The order of the modules of a graph, or the cycle that prevents one. -/
def orderOf (modules : List Record) (g : Graph) : Except Error (List Record) :=
  match g.cycle?, g.loop? with
  | some names, _ => .error (.cycle (.through names))
  | none, some name => .error (.cycle (.at name))
  | none, none => .ok (g.sorted.flatMap fun n => modules.filter (·.dotted = n))

/-- The plan that the requirements in the sources give. -/
def ofSources : Resolver := fun st s modules => do
  let required ← requirements st s modules
  return {
    order := ← orderOf modules (graph modules required)
    external := .ofList (required.flatMap fun r => r.2.flatMap (·.packages))
    deps := depsTable required }

end Plan

end Bindery
