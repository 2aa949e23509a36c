import DotLang.Edge
import DotLang.Subgraph.Update

/-!
# Graphs

A graph is the root of a tree of groups, and the edges between the nodes of the root. In a strict graph
two nodes are joined by one edge at most; adding another adds to the attributes of the first.
-/

namespace DotLang

structure GraphKind where
  directed : Bool
  strict : Bool
deriving Repr, DecidableEq

namespace GraphKind

def keyword (kind : GraphKind) : String := if kind.directed then "digraph" else "graph"

def edgeOp (kind : GraphKind) : String := if kind.directed then "->" else "--"

instance : ToString GraphKind where
  toString kind := if kind.strict then "strict " ++ kind.keyword else kind.keyword

end GraphKind

structure Graph where
  kind : GraphKind
  /-- The root: the name and the attributes of the graph, its nodes and its groups. -/
  body : Subgraph
  edges : List Edge

namespace Graph

def new (name : String) (kind : GraphKind) : Graph := ⟨kind, .new name, []⟩

def name (graph : Graph) : String := graph.body.name

def nodes (graph : Graph) : NodeMap := graph.body.nodes

/-! ## Nodes -/

def addNode (graph : Graph) (name : String) (attrs : Attributes) : Graph :=
  { graph with body := graph.body.addNode name attrs }

def ensureNode (graph : Graph) (name : String) : Graph :=
  if graph.nodes.contains name then graph else graph.addNode name ∅

/-- Removes a node from the graph and from all groups, with the edges that touch it. -/
def eraseNode (graph : Graph) (name : String) : Graph :=
  { graph with
    body := graph.body.purge name
    edges := graph.edges.filter fun edge => !edge.touches name }

/-! ## Edges -/

/-- The edges of a strict graph with `edge` among them: its attributes are merged into those of the first
edge between its nodes, or it comes last. -/
def insertStrict (directed : Bool) (edge : Edge) : List Edge → List Edge
  | [] => [edge]
  | first :: rest =>
    if first.connects edge.source.node edge.destination.node directed then
      { first with attributes := first.attributes.merge edge.attributes } :: rest
    else first :: insertStrict directed edge rest

def addEdge (graph : Graph) (edge : Edge) : Graph :=
  let graph := (graph.ensureNode edge.source.node).ensureNode edge.destination.node
  if graph.kind.strict then { graph with edges := insertStrict graph.kind.directed edge graph.edges }
  else { graph with edges := graph.edges ++ [edge] }

/-- The first edge from `a` to `b`, in either orientation if the graph is undirected. -/
def findEdge? (graph : Graph) (a b : String) : Option Edge :=
  graph.edges.find? fun edge => edge.connects a b graph.kind.directed

def hasEdge (graph : Graph) (a b : String) : Bool :=
  (graph.findEdge? a b).isSome

/-- Removes the first edge from `a` to `b`. The nodes stay. -/
def eraseEdge (graph : Graph) (a b : String) : Graph :=
  { graph with edges := graph.edges.eraseP fun edge => edge.connects a b graph.kind.directed }

def modifyEdge (graph : Graph) (a b : String) (f : Attributes → Attributes) : Graph :=
  let place := graph.edges.findIdx fun edge => edge.connects a b graph.kind.directed
  { graph with edges := graph.edges.modify place fun edge => { edge with attributes := f edge.attributes } }

/-! ## Groups -/

def attach (graph : Graph) (sub : Subgraph) : Graph :=
  { graph with body := graph.body.attach sub }

/-- Attaches a group below the one of a name; there is no result if that is missing. -/
def attachUnder? (graph : Graph) (parent : String) (sub : Subgraph) : Option Graph :=
  (graph.body.attachUnder (some parent) sub).map fun body => { graph with body }

/-- Changes the first group of a name; there is no result if there is none. -/
def modifySubgraph? (graph : Graph) (name : String) (f : Subgraph → Subgraph) : Option Graph :=
  (graph.body.modify? name f).map fun body => { graph with body }

end Graph

end DotLang
