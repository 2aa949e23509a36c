import DotLang.Graph.Basic

/-!
# Which edges, which neighbours

Questions about the edges of a graph. In an undirected graph an edge answers in both orientations.
-/

namespace DotLang.Graph

/-- Whether an edge leads from and to nodes that pass; none lets every node pass. -/
def leadsBetween (source destination : Option String) (edge : Edge) : Bool :=
  source.all (· == edge.source.node) && destination.all (· == edge.destination.node)

def edgesBetween (graph : Graph) (source destination : Option String) : List Edge :=
  graph.edges.filter fun edge =>
    leadsBetween source destination edge
      || (!graph.kind.directed && leadsBetween destination source edge)

/-- The other end of an edge at a node; of a loop, the node itself. -/
def across (node : String) (edge : Edge) : Option String :=
  if edge.destination.node = node then some edge.source.node
  else if edge.source.node = node then some edge.destination.node
  else none

def neighbors (graph : Graph) (node : String) : List String :=
  (graph.edges.filterMap (across node)).eraseDups

def predecessors (graph : Graph) (node : String) : List String :=
  if graph.kind.directed then
    ((graph.edges.filter fun edge => edge.destination.node == node).map fun edge => edge.source.node).eraseDups
  else graph.neighbors node

def successors (graph : Graph) (node : String) : List String :=
  if graph.kind.directed then
    ((graph.edges.filter fun edge => edge.source.node == node).map fun edge => edge.destination.node).eraseDups
  else graph.neighbors node

end DotLang.Graph
