/-!
# Graphs of names

A graph lists its nodes and its edges, an edge in front of another being the older one. A walk
visits nodes depth first, the ends of older edges before those of newer ones, and keeps the order
in which nodes are discovered and the order in which they are finished. From the orders come the
components, sets of nodes on common cycles, and an order that follows the edges.
-/

namespace Bindery

structure Graph where
  nodes : List String
  edges : List (String × String)
  deriving DecidableEq, Repr

namespace Graph

/-- Adds an edge, unless it is there. -/
def addEdge (g : Graph) (source target : String) : Graph :=
  if (source, target) ∈ g.edges then g else { g with edges := g.edges ++ [(source, target)] }

/-- The nodes that the edges from a node lead to. -/
def successors (g : Graph) (n : String) : List String :=
  (g.edges.filter (·.1 = n)).map (·.2)

/-- The nodes that the edges to a node come from. -/
def predecessors (g : Graph) (n : String) : List String :=
  (g.edges.filter (·.2 = n)).map (·.1)

/-- The nodes of a walk so far, by discovery and by finishing. -/
structure Walk where
  discovered : List String
  finished : List String
  deriving DecidableEq, Repr

/-- Visits a node and, through at most so many levels, all that can be reached from it and has not
been discovered. -/
def visit (next : String → List String) : Nat → Walk → String → Walk
  | 0, w, _ => w
  | depth + 1, w, n =>
    if n ∈ w.discovered then w
    else
      let w := (next n).foldl (visit next depth) { w with discovered := w.discovered ++ [n] }
      { w with finished := w.finished ++ [n] }

/-- Visits some nodes of the graph in order. A walk is never deeper than there are nodes. -/
def walk (g : Graph) (next : String → List String) (w : Walk) (nodes : List String) : Walk :=
  nodes.foldl (visit next (g.nodes.length + 1)) w

/-- What the walks from some nodes, one after the other, discover. -/
def parts (g : Graph) (next : String → List String) (w : Walk) : List String → List (List String)
  | [] => []
  | n :: r =>
    let w' := g.walk next w [n]
    w'.discovered.drop w.discovered.length :: g.parts next w' r

/-- The components: walks against the edges finish a node after all that lead to it, so walks along
the edges from the last finished node on stay inside its component. -/
def components (g : Graph) : List (List String) :=
  let w := g.walk g.predecessors ⟨[], []⟩ g.nodes
  g.parts g.successors ⟨[], []⟩ w.finished.reverse

/-- The first component of several nodes. -/
def cycle? (g : Graph) : Option (List String) := g.components.find? (1 < ·.length)

/-- The first node with an edge to itself that a walk along the edges discovers. -/
def loop? (g : Graph) : Option String :=
  (g.walk g.successors ⟨[], []⟩ g.nodes).discovered.find? fun n => (n, n) ∈ g.edges

/-- The nodes, each before the ends of its edges if there is no cycle. -/
def sorted (g : Graph) : List String :=
  (g.walk g.successors ⟨[], []⟩ g.nodes).finished.reverse

end Graph

end Bindery
