import DotLang.Graph.Basic

/-!
# Editing a graph

The changes that a graph offers to its user, as data, so that a sequence of them can be run. One that is
refused leaves the graph as it was: an attribute that cannot be written, a parent or a group that is missing.
-/

namespace DotLang.Graph

/-- Gives the graph an attribute, if name and value can be written. -/
def setAttribute (graph : Graph) (name : String) (value : AttrValue) : Except Error Graph :=
  (graph.body.attributes.set name value).map fun attributes => { graph with body := { graph.body with attributes } }

def modifyNode (graph : Graph) (name : String) (f : Attributes → Attributes) : Graph :=
  { graph with body := { graph.body with nodes := graph.nodes.modify name f } }

/-- Takes a group out of the tree; gives the group and the graph that is left, whose nodes stay. -/
def detach? (graph : Graph) (name : String) : Option (Subgraph × Graph) :=
  (graph.body.detach? name).map fun (found, body) => (found, { graph with body })

inductive Edit
  | setAttribute (name : String) (value : AttrValue)
  | addNode (name : String) (attrs : Attributes)
  | modifyNode (name : String) (f : Attributes → Attributes)
  | eraseNode (name : String)
  | addEdge (source destination : Endpoint) (attrs : Attributes)
  | modifyEdge (a b : String) (f : Attributes → Attributes)
  | eraseEdge (a b : String)
  | attach (sub : Subgraph)
  | attachUnder (parent : String) (sub : Subgraph)
  | detach (name : String)

def apply (graph : Graph) : Edit → Graph
  | .setAttribute name value => (graph.setAttribute name value).toOption.getD graph
  | .addNode name attrs => graph.addNode name attrs
  | .modifyNode name f => graph.modifyNode name f
  | .eraseNode name => graph.eraseNode name
  | .addEdge source destination attrs => graph.addEdge ⟨source, destination, attrs⟩
  | .modifyEdge a b f => graph.modifyEdge a b f
  | .eraseEdge a b => graph.eraseEdge a b
  | .attach sub => graph.attach sub
  | .attachUnder parent sub => (graph.attachUnder? parent sub).getD graph
  | .detach name => ((graph.detach? name).map Prod.snd).getD graph

/-- Applies edits one after the other. -/
def run (graph : Graph) (edits : List Edit) : Graph := edits.foldl apply graph

end DotLang.Graph
