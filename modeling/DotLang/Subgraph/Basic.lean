import DotLang.Node

/-!
# Subgraphs

A subgraph is a group of nodes, named or not, with further groups inside. Groups form a tree: each has
the nodes and the groups of its own, and none is part of two. Edges belong to the whole graph.
-/

namespace DotLang

structure Subgraph where
  name : String
  attributes : Attributes
  nodes : NodeMap
  children : List Subgraph

namespace Subgraph

def new (name : String) (attributes : Attributes := ∅) : Subgraph := ⟨name, attributes, ∅, []⟩

instance : Inhabited Subgraph := ⟨new ""⟩

def isAnonymous (sub : Subgraph) : Bool := sub.name.isEmpty

/-- Declares a node in this group, or merges the attributes into those it has here. -/
def addNode (sub : Subgraph) (name : String) (attrs : Attributes) : Subgraph :=
  { sub with nodes := sub.nodes.add name attrs }

def pushChild (sub child : Subgraph) : Subgraph :=
  { sub with children := sub.children ++ [child] }

/-! ## The hierarchy -/

mutual
def size : Subgraph → Nat
  | ⟨_, _, _, children⟩ => 1 + sizes children

def sizes : List Subgraph → Nat
  | [] => 0
  | sub :: rest => sub.size + sizes rest
end

theorem sizes_append : ∀ a b : List Subgraph, sizes (a ++ b) = sizes a + sizes b
  | [], b => by simp [sizes]
  | sub :: rest, b => by simp [sizes, sizes_append rest b, Nat.add_assoc]

theorem size_eq (sub : Subgraph) : sub.size = 1 + sizes sub.children := by
  cases sub; simp [size]

/-- The groups of the trees on a stack: the one on top, then the groups below it, then the others. -/
def walk (stack : List Subgraph) : List Subgraph :=
  match stack with
  | [] => []
  | sub :: rest => sub :: walk (sub.children ++ rest)
termination_by sizes stack
decreasing_by simp [sizes_append, sizes, size_eq sub]

/-- A group and all groups below it, each in front of its children. -/
def hierarchy (sub : Subgraph) : List Subgraph := walk [sub]

/-- The nodes of a group and of all groups below it, in the order of the hierarchy. -/
def allNodes (sub : Subgraph) : List Node := sub.hierarchy.flatMap fun group => group.nodes.toList

/-- The names of all nodes in the hierarchy, where each comes first. -/
def nodeNames (sub : Subgraph) : List String := (sub.allNodes.map Node.name).eraseDups

/-- The first group below this one with a name. An anonymous group cannot be found. -/
def find? (sub : Subgraph) (name : String) : Option Subgraph :=
  if name.isEmpty then none else sub.hierarchy.tail.find? fun group => group.name == name

end Subgraph

end DotLang
