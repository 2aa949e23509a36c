import DotLang.Written

/-!
# Summaries

A listing of what a graph holds, for people: one thing a line, indented by one space for each level.
-/

namespace DotLang

def summaryLine (indent : Nat) (text : String) : String :=
  String.ofList (List.replicate indent ' ') ++ text ++ "\n"

/-- The attributes, counted from zero. -/
def Attributes.summary (attrs : Attributes) (indent : Nat) : String :=
  String.join (attrs.entries.mapIdx fun i attr =>
    summaryLine indent s!"{i})\"{attr.name}\" = \"{attr.value}\"")

def Edge.summary (edge : Edge) (kind : GraphKind) (indent : Nat) : String :=
  summaryLine indent s!"Edge {edge.source.written} {kind.edgeOp} {edge.destination.written}"
    ++ edge.attributes.summary (indent + 1)

mutual
def Subgraph.summary (indent : Nat) : Subgraph → String
  | ⟨name, attrs, nodes, children⟩ =>
    summaryLine indent ("Subgraph: " ++ if name.isEmpty then "(anonymous)" else name)
      ++ attrs.summary (indent + 1)
      ++ String.join (nodes.names.map fun name => summaryLine (indent + 1) ("Node " ++ name))
      ++ Subgraph.childSummaries (indent + 1) children

def Subgraph.childSummaries (indent : Nat) : List Subgraph → String
  | [] => ""
  | child :: rest => child.summary indent ++ Subgraph.childSummaries indent rest
end

def Node.summary (node : Node) (indent : Nat) : String :=
  summaryLine indent ("Node " ++ node.name) ++ node.attributes.summary (indent + 1)

/-- The attributes, the nodes, the tree of groups and the edges of a graph. -/
def Graph.summary (graph : Graph) : String :=
  summaryLine 0
      s!"Graph: {graph.name} ({graph.kind}, {graph.nodes.size} nodes, {graph.edges.length} edges)"
    ++ graph.body.attributes.summary 1
    ++ String.join (graph.nodes.toList.map fun node => node.summary 1)
    ++ Subgraph.childSummaries 1 graph.body.children
    ++ String.join (graph.edges.map fun edge => edge.summary graph.kind 1)

end DotLang
