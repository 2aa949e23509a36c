import DotLang.Proofs.Editing

/-!
# Removing a node

A node goes out of the root and of every group at once, and the edges that touch it go with it. All else
stays as it is and where it is: the other nodes with their attributes, the tree of groups, the other edges.
-/

namespace DotLang

namespace NodeMap

/-- Takes a node out of the map: gives what stood in its place, and the map that is left. -/
def take (map : NodeMap) (name : String) : Option Node × NodeMap :=
  match map.index[name]? with
  | none => (none, map)
  | some place => (map.nodes[place]?, map.erase name)

theorem take_eq (map : NodeMap) (name : String) : map.take name = (map.get? name, map.erase name) := by
  unfold take
  split
  · rename_i h
    have hm := index_eq_none.1 h
    rw [get?_of_not_mem hm, erase_of_not_mem hm]
  · rename_i place h
    rw [get?, h]
    rfl

end NodeMap

namespace Subgraph

/-- Takes a node out of a tree: gives the one that the root had, and the tree without it in any group. -/
def takeNode (sub : Subgraph) (name : String) : Option Node × Subgraph :=
  let (found, nodes) := sub.nodes.take name
  (found, { sub with nodes, children := purgeAll name sub.children })

theorem takeNode_eq (sub : Subgraph) (name : String) :
    sub.takeNode name = (sub.nodes.get? name, sub.purge name) := by
  cases sub
  unfold takeNode
  rw [NodeMap.take_eq, purge]

/-! ## The tree -/

/-- Trees of the same shape, in which every group of the one is to its like in the other as `R` says. -/
inductive Matches (R : Label → Label → Prop) : Subgraph → Subgraph → Prop
  | intro {a b : Subgraph} (label : R a.label b.label)
    (below : List.Forall₂ (Matches R) a.children b.children) : Matches R a b

/-- A group without a node, and all else of it as it was. -/
structure Without (node : String) (a b : Label) : Prop where
  name : b.1 = a.1
  attributes : b.2.1 = a.2.1
  nodes : b.2.2.toList = a.2.2.toList.filter fun other => other.name ≠ node
  lookup : ∀ other, b.2.2.get? other = if other = node then none else a.2.2.get? other

section
variable {name : String}

mutual
theorem matches_purge : ∀ sub : Subgraph, Matches (Without name) sub (sub.purge name)
  | ⟨own, attrs, nodes, children⟩ => by
    rw [purge]
    exact .intro ⟨rfl, rfl, nodes.toList_erase name, nodes.get?_erase name⟩ (matches_purgeAll children)

theorem matches_purgeAll : ∀ subs : List Subgraph, List.Forall₂ (Matches (Without name)) subs (purgeAll name subs)
  | [] => by
    rw [purgeAll]
    exact .nil
  | child :: rest => by
    rw [purgeAll]
    exact .cons (matches_purge child) (matches_purgeAll rest)
end

theorem not_mem_purge {sub group : Subgraph} (h : group ∈ (sub.purge name).hierarchy) :
    name ∉ group.nodes.names := by
  have hl : group.label ∈ (sub.purge name).labels := List.mem_map_of_mem h
  rw [labels_purge] at hl
  obtain ⟨old, -, he⟩ := List.mem_map.1 hl
  have hnodes : old.2.2.erase name = group.nodes := congrArg (·.2.2) he
  rw [← hnodes, NodeMap.mem_names_erase]
  simp

mutual
theorem purge_of_absent : ∀ {sub : Subgraph}, (∀ group ∈ sub.hierarchy, name ∉ group.nodes.names) →
    sub.purge name = sub
  | ⟨own, attrs, nodes, children⟩, h => by
    rw [hierarchy_eq, List.forall_mem_cons] at h
    rw [purge, NodeMap.erase_of_not_mem h.1, purgeAll_of_absent h.2]

theorem purgeAll_of_absent : ∀ {subs : List Subgraph},
    (∀ group ∈ subs.flatMap hierarchy, name ∉ group.nodes.names) → purgeAll name subs = subs
  | [], _ => by rw [purgeAll]
  | child :: rest, h => by
    rw [List.flatMap_cons, List.forall_mem_append] at h
    rw [purgeAll, purge_of_absent h.1, purgeAll_of_absent h.2]
end

theorem purge_purge (sub : Subgraph) : (sub.purge name).purge name = sub.purge name :=
  purge_of_absent fun _ hg => not_mem_purge hg

end

end Subgraph

namespace Graph

/-- Takes a node out of a graph: gives the one that the root had, and the graph that is left. -/
def takeNode (graph : Graph) (name : String) : Option Node × Graph :=
  let (found, body) := graph.body.takeNode name
  (found, { graph with body, edges := graph.edges.filter fun edge => !edge.touches name })

theorem takeNode_eq (graph : Graph) (name : String) :
    graph.takeNode name = (graph.nodes.get? name, graph.eraseNode name) := by
  unfold takeNode
  rw [Subgraph.takeNode_eq]
  rfl

theorem edges_eraseNode (graph : Graph) (name : String) :
    (graph.eraseNode name).edges =
      graph.edges.filter fun edge => edge.source.node ≠ name ∧ edge.destination.node ≠ name := by
  apply List.filter_congr
  intro edge _
  rw [Bool.eq_iff_iff]
  simp [Edge.touches]

theorem eraseNode_eraseNode (graph : Graph) (name : String) :
    (graph.eraseNode name).eraseNode name = graph.eraseNode name := by
  unfold eraseNode
  simp only [Subgraph.purge_purge, List.filter_filter, Bool.and_self]

/-- A graph and what is left of it without a node. -/
structure Bereft (name : String) (graph left : Graph) : Prop where
  kind : left.kind = graph.kind
  edges : left.edges = graph.edges.filter fun edge => edge.source.node ≠ name ∧ edge.destination.node ≠ name
  tree : Subgraph.Matches (Subgraph.Without name) graph.body left.body
  gone : ∀ group ∈ left.body.hierarchy, group.nodes.contains name = false

theorem bereft_eraseNode (graph : Graph) (name : String) : Bereft name graph (graph.eraseNode name) where
  kind := rfl
  edges := edges_eraseNode graph name
  tree := Subgraph.matches_purge graph.body
  gone group hg := by
    rw [← Bool.not_eq_true, NodeMap.contains_iff]
    exact Subgraph.not_mem_purge hg

/-- The node comes out of the root, all else is left as it was, and a second time nothing comes out and nothing
changes. -/
theorem takeNode_exact (graph : Graph) (name : String) :
    graph.takeNode name = (graph.nodes.toList.find? fun node => node.name == name, graph.eraseNode name) ∧
      Bereft name graph (graph.eraseNode name) ∧
      (graph.eraseNode name).takeNode name = (none, graph.eraseNode name) := by
  have hnone : (graph.eraseNode name).nodes.get? name = none := by
    apply NodeMap.get?_of_not_mem
    exact Subgraph.not_mem_purge (Subgraph.self_mem_hierarchy (graph.body.purge name))
  refine ⟨?_, bereft_eraseNode graph name, ?_⟩
  · rw [takeNode_eq, NodeMap.get?_eq_find?]
  · rw [takeNode_eq, hnone, eraseNode_eraseNode]

end Graph

end DotLang
