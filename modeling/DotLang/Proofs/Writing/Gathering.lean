import DotLang.Proofs.Occurrences
import DotLang.Proofs.Writing.RoundTrip

/-!
# Where the nodes are that are read back

A group that is read back has the nodes of all groups below it, since each of those left its nodes in the
body around. So the nodes are those of the hierarchy, each where it comes first, and what is read back
differs from what was written by that alone.
-/

namespace DotLang

/-! ## Nodes without attributes -/

def bareNodes (names : List String) : List Node := names.map fun name => ⟨name, ∅⟩

namespace NodeMap

theorem declare_of_mem {name : String} : ∀ {nodes : List Node}, name ∈ nodes.map Node.name →
    declare name ∅ nodes = nodes
  | [], h => absurd h List.not_mem_nil
  | node :: rest, h => by
    unfold declare
    split
    · rename_i hn
      rw [← hn]
      rfl
    · rename_i hn
      rw [List.map_cons, List.mem_cons] at h
      rw [declare_of_mem (h.resolve_left (Ne.symm hn))]

/-- Of nodes that are declared without attributes, those come in that are not there, each once. -/
theorem declareAll_bareNodes : ∀ (names : List String) (nodes : List Node),
    declareAll nodes (bareNodes names) =
      nodes ++ bareNodes (names.removeAll (nodes.map Node.name)).eraseDups
  | [], nodes => (List.append_nil nodes).symm
  | name :: rest, nodes => by
    show declareAll (declare name ∅ nodes) (bareNodes rest) = _
    by_cases h : name ∈ nodes.map Node.name
    · have hskip : (name :: rest).removeAll (nodes.map Node.name) = rest.removeAll (nodes.map Node.name) := by
        rw [List.cons_removeAll, if_neg (by simpa using h)]
      rw [declare_of_mem h, declareAll_bareNodes rest nodes, hskip]
    · have htake : (name :: rest).removeAll (nodes.map Node.name) = name :: rest.removeAll (nodes.map Node.name) := by
        rw [List.cons_removeAll, if_pos (by simpa using h)]
      have hlater : rest.removeAll ((nodes ++ [(⟨name, ∅⟩ : Node)]).map Node.name) =
          (rest.removeAll (nodes.map Node.name)).filter fun other => !other == name := by
        simp only [List.removeAll, List.filter_filter, List.map_append]
        refine List.filter_congr fun other _ => ?_
        by_cases ho : other = name <;> simp [ho]
      rw [declare_of_not_mem h, declareAll_bareNodes rest, hlater, htake, List.eraseDups_cons, List.append_assoc]
      rfl

theorem declareAll_append (nodes a b : List Node) : declareAll nodes (a ++ b) = declareAll (declareAll nodes a) b :=
  List.foldl_append

theorem declareAll_of_nodup : ∀ {new nodes : List Node}, (nodes.map Node.name ++ new.map Node.name).Nodup →
    declareAll nodes new = nodes ++ new
  | [], nodes, _ => (List.append_nil nodes).symm
  | node :: new, nodes, h => by
    have hm : node.name ∉ nodes.map Node.name := fun hm =>
      (List.nodup_append.1 h).2.2 _ hm node.name (List.mem_cons_self ..) rfl
    show declareAll (declare node.name node.attributes nodes) new = _
    rw [declare_of_not_mem hm, declareAll_of_nodup (by simpa using h), List.append_assoc]
    rfl

end NodeMap

/-! ## The nodes of groups that are read back -/

theorem names_bareNodes (names : List String) : (bareNodes names).map Node.name = names := by
  rw [bareNodes, List.map_map]
  exact List.map_id names

theorem map_bare (nodes : List Node) : nodes.map Node.bare = bareNodes (nodes.map Node.name) := by
  rw [bareNodes, List.map_map]
  rfl

theorem bareNodes_append (a b : List String) : bareNodes (a ++ b) = bareNodes a ++ bareNodes b :=
  List.map_append

namespace Subgraph

theorem memberNames_eq_append (sub : Subgraph) :
    sub.memberNames = sub.nodes.names ++ sub.children.flatMap memberNames := by
  rw [memberNames_cons, labelsBelow_eq, List.flatMap_assoc]
  rfl

theorem allNodes_eq (sub : Subgraph) : sub.allNodes = sub.nodes.toList ++ sub.children.flatMap allNodes := by
  rw [allNodes, hierarchy_eq, List.flatMap_cons, descendants, List.flatMap_assoc]
  rfl

theorem nodeNames_eq (sub : Subgraph) : sub.nodeNames = sub.memberNames.eraseDups := by
  rw [nodeNames, memberNames_eq]

theorem toList_nodes_foldl_adopt (children : List Subgraph) (sub : Subgraph) :
    (children.foldl adopt sub).nodes.toList = NodeMap.declareAll sub.nodes.toList (children.flatMap allNodes) := by
  induction children generalizing sub with
  | nil => rfl
  | cons child rest ih =>
    rw [List.foldl_cons, ih, List.flatMap_cons, NodeMap.declareAll_append]
    congr 1
    exact NodeMap.toList_addAll ..

theorem toList_nodes_filled (name : String) (attrs : Attributes) (nodes : List Node) (children : List Subgraph) :
    ((new name).filled attrs nodes children).nodes.toList =
      NodeMap.declareAll (NodeMap.declareAll [] nodes) (children.flatMap allNodes) := by
  rw [filled, toList_nodes_foldl_adopt]
  congr 1
  exact NodeMap.toList_addAll ..

theorem declareAll_bareNodes_nil (names : List String) :
    NodeMap.declareAll [] (bareNodes names) = bareNodes names.eraseDups := by
  rw [NodeMap.declareAll_bareNodes]
  simp

theorem toList_nodes_reread {sub : Subgraph} {below : List String}
    (h : (rereadAll sub.children).flatMap allNodes = bareNodes below) :
    sub.reread.nodes.toList = bareNodes (sub.nodes.names ++ below).eraseDups := by
  obtain ⟨name, attrs, nodes, children⟩ := sub
  rw [reread, toList_nodes_filled, h, map_bare, ← NodeMap.declareAll_append, ← bareNodes_append,
    declareAll_bareNodes_nil]
  rfl

mutual
/-- All nodes that are read back of a group are bare, and they are those that it has. -/
theorem allNodes_reread : ∀ sub : Subgraph, ∃ names,
    sub.reread.allNodes = bareNodes names ∧ names.eraseDups = sub.memberNames.eraseDups
  | ⟨name, attrs, nodes, children⟩ => by
    obtain ⟨below, hb, he⟩ := allNodes_rereadAll children
    refine ⟨(nodes.names ++ below).eraseDups ++ below, ?_, ?_⟩
    · rw [allNodes_eq, toList_nodes_reread hb, children_reread, hb, bareNodes_append]
    · have hsub : ∀ entry ∈ below, entry ∈ (nodes.names ++ below).eraseDups := fun entry hm =>
        List.mem_eraseDups.2 (List.mem_append_right _ hm)
      rw [eraseDups_append_of_subset hsub, eraseDups_of_nodup (nodup_eraseDups _), memberNames_eq_append]
      exact eraseDups_append_right _ he

theorem allNodes_rereadAll : ∀ subs : List Subgraph, ∃ names,
    (rereadAll subs).flatMap allNodes = bareNodes names ∧
      names.eraseDups = (subs.flatMap memberNames).eraseDups
  | [] => ⟨[], rfl, rfl⟩
  | child :: rest => by
    obtain ⟨own, ho, heo⟩ := allNodes_reread child
    obtain ⟨later, hl, hel⟩ := allNodes_rereadAll rest
    refine ⟨own ++ later, ?_, ?_⟩
    · rw [rereadAll, List.flatMap_cons, ho, hl, bareNodes_append]
    · rw [List.flatMap_cons, eraseDups_append_left _ heo, eraseDups_append_right _ hel]
end

/-- A group that is read back has the nodes of its hierarchy, without attributes. -/
theorem nodes_reread (sub : Subgraph) : sub.reread.nodes.toList = bareNodes sub.nodeNames := by
  obtain ⟨below, hb, he⟩ := allNodes_rereadAll sub.children
  rw [toList_nodes_reread hb, nodeNames_eq, memberNames_eq_append, eraseDups_append_right _ he]

theorem attributes_reread {sub : Subgraph} (h : sub.attributes.names.Nodup) :
    sub.reread.attributes = sub.attributes := by
  cases sub
  rw [reread, filled, attributes_foldl_adopt]
  exact Attributes.empty_merge h

end Subgraph

/-! ## The tree that is read back -/

/-- What there is to see of a group: its name, its attributes and its nodes, and the groups below it. -/
inductive Shape
  | group (name : String) (attributes : Attributes) (nodes : List Node) (children : List Shape)

mutual
def Subgraph.shape : Subgraph → Shape
  | ⟨name, attrs, nodes, children⟩ => .group name attrs nodes.toList (Subgraph.shapes children)

def Subgraph.shapes : List Subgraph → List Shape
  | [] => []
  | child :: rest => child.shape :: Subgraph.shapes rest
end

mutual
/-- The shape of a tree in which each group has the nodes of its hierarchy, without attributes. -/
def Subgraph.gathered : Subgraph → Shape
  | ⟨name, attrs, nodes, children⟩ =>
    .group name attrs (bareNodes (Subgraph.mk name attrs nodes children).nodeNames) (Subgraph.gatheredAll children)

def Subgraph.gatheredAll : List Subgraph → List Shape
  | [] => []
  | child :: rest => child.gathered :: Subgraph.gatheredAll rest
end

/-- The node of the root that has a name, or one without attributes. -/
def Graph.rootNode (graph : Graph) (name : String) : Node := (graph.nodes.get? name).getD ⟨name, ∅⟩

/-- The shape of a graph in which the root and each group has the nodes of its hierarchy. Those that the
root had before keep their attributes. -/
def Graph.gathered (graph : Graph) : Shape :=
  .group graph.name graph.body.attributes (graph.body.nodeNames.map graph.rootNode)
    (Subgraph.gatheredAll graph.body.children)

theorem Subgraph.shape_eq (sub : Subgraph) :
    sub.shape = .group sub.name sub.attributes sub.nodes.toList (Subgraph.shapes sub.children) := by
  cases sub
  rfl

mutual
theorem Subgraph.shape_reread : ∀ sub : Subgraph, (∀ group ∈ sub.hierarchy, group.attributes.names.Nodup) →
    sub.reread.shape = sub.gathered
  | ⟨name, attrs, nodes, children⟩, h => by
    rw [Subgraph.hierarchy_eq, List.forall_mem_cons] at h
    rw [Subgraph.shape_eq, Subgraph.name_reread, Subgraph.attributes_reread h.1, Subgraph.nodes_reread,
      Subgraph.children_reread, Subgraph.shapes_rereadAll children h.2]
    rfl

theorem Subgraph.shapes_rereadAll : ∀ subs : List Subgraph,
    (∀ group ∈ subs.flatMap Subgraph.hierarchy, group.attributes.names.Nodup) →
    Subgraph.shapes (Subgraph.rereadAll subs) = Subgraph.gatheredAll subs
  | [], _ => rfl
  | child :: rest, h => by
    rw [List.flatMap_cons, List.forall_mem_append] at h
    rw [Subgraph.rereadAll, Subgraph.shapes, Subgraph.shape_reread child h.1, Subgraph.shapes_rereadAll rest h.2]
    rfl
end

theorem rootNode_of_mem {graph : Graph} {node : Node} (h : node ∈ graph.nodes.toList) :
    graph.rootNode node.name = node := by
  rw [Graph.rootNode, NodeMap.get?_of_mem h]
  rfl

theorem rootNode_of_not_mem {graph : Graph} {name : String} (h : name ∉ graph.nodes.names) :
    graph.rootNode name = ⟨name, ∅⟩ := by
  rw [Graph.rootNode, NodeMap.get?_of_not_mem h]
  rfl

theorem map_rootNode_names (graph : Graph) : graph.nodes.names.map graph.rootNode = graph.nodes.toList := by
  rw [NodeMap.names, List.map_map]
  exact (List.map_congr_left fun node hn => rootNode_of_mem hn).trans (List.map_id _)

/-- The root that is read back has the nodes of all groups. -/
theorem nodes_reread_root (graph : Graph) :
    graph.reread.nodes.toList = graph.body.nodeNames.map graph.rootNode := by
  obtain ⟨below, hb, he⟩ := Subgraph.allNodes_rereadAll graph.body.children
  have hown : NodeMap.declareAll [] graph.nodes.toList = graph.nodes.toList :=
    NodeMap.declareAll_of_nodup graph.nodes.nodup_names
  have hnew : (below.removeAll graph.nodes.names).eraseDups.map graph.rootNode =
      bareNodes (below.removeAll graph.nodes.names).eraseDups := by
    refine List.map_congr_left fun name hn => rootNode_of_not_mem fun hm => ?_
    have hout := (List.mem_filter.1 (List.mem_eraseDups.1 hn)).2
    simp [hm] at hout
  calc graph.reread.nodes.toList
      = NodeMap.declareAll graph.nodes.toList (bareNodes below) := by
        show ((Subgraph.new graph.name).filled _ _ _).nodes.toList = _
        rw [Subgraph.toList_nodes_filled, hb, hown]
    _ = graph.nodes.toList ++ bareNodes (below.removeAll graph.nodes.names).eraseDups :=
        NodeMap.declareAll_bareNodes ..
    _ = (graph.nodes.names ++ below).eraseDups.map graph.rootNode := by
        rw [List.eraseDups_append, List.map_append, eraseDups_of_nodup graph.nodes.nodup_names, map_rootNode_names,
          hnew]
    _ = graph.body.nodeNames.map graph.rootNode := by
        rw [Subgraph.nodeNames_eq, Subgraph.memberNames_eq_append, eraseDups_append_right _ he]
        rfl

theorem name_reread_root (graph : Graph) : graph.reread.body.name = graph.name := Subgraph.name_foldl_adopt ..

theorem attributes_reread_root {graph : Graph} (h : graph.body.attributes.names.Nodup) :
    graph.reread.body.attributes = graph.body.attributes :=
  (Subgraph.attributes_foldl_adopt ..).trans (Attributes.empty_merge h)

theorem children_reread_root (graph : Graph) : graph.reread.body.children = Subgraph.rereadAll graph.body.children :=
  Subgraph.children_foldl_adopt ..

theorem shape_reread_root {graph : Graph} (h : graph.Regular) : graph.reread.body.shape = graph.gathered := by
  have hattrs := h.attributes
  rw [Subgraph.hierarchy_eq, List.forall_mem_cons] at hattrs
  rw [Subgraph.shape_eq, name_reread_root, attributes_reread_root hattrs.1, children_reread_root,
    Subgraph.shapes_rereadAll _ hattrs.2]
  exact congrArg (Shape.group _ _ · _) (nodes_reread_root graph)

/-- Writing a graph and parsing the text gives the graph again: its kind, its name, its attributes and its
tree of groups, each with the nodes of its hierarchy, and its edges. -/
theorem parse_toDot_gathered {graph : Graph} (hl : graph.Legible) (hr : graph.Regular)
    (hd : graph.body.height ≤ maxNesting) :
    ∃ result, parse graph.toDot = .ok result ∧ result.kind = graph.kind ∧
      result.body.shape = graph.gathered ∧ result.edges = graph.edges.map Edge.reread :=
  ⟨graph.reread, parse_toDot hl hr hd, rfl, shape_reread_root hr, rfl⟩

/-- A strict graph with a group in a group, and an edge that meets a port named like a side. -/
def nestedGraph : Graph where
  kind := ⟨true, true⟩
  body := ⟨"g", ⟨[⟨"rank", .string "same"⟩]⟩,
    (∅ : NodeMap).addAll [⟨"a", ⟨[⟨"label", .markup "<b/>"⟩]⟩⟩, ⟨"b", ∅⟩],
    [⟨"outer", ∅, ∅, [⟨"inner", ∅, (∅ : NodeMap).addAll [⟨"b", ∅⟩], []⟩]⟩]⟩
  edges := [⟨⟨"a", some "n", none⟩, ⟨"b", none, some .sw⟩, ∅⟩]

theorem legible_nestedGraph : nestedGraph.Legible where
  groups := by decide +kernel
  nodes := by decide +kernel
  edges := by decide

theorem regular_nestedGraph : nestedGraph.Regular where
  attributes := by decide +kernel
  nodes := by decide
  edges := by decide
  single _ := List.pairwise_singleton ..
  distinct := by decide +kernel

theorem parse_toDot_nestedGraph : nestedGraph.Legible ∧ nestedGraph.Regular ∧ nestedGraph.body.height ≤ maxNesting ∧
    ∃ result, parse nestedGraph.toDot = .ok result ∧ result.kind = nestedGraph.kind ∧
      result.body.shape = nestedGraph.gathered ∧ result.edges = nestedGraph.edges.map Edge.reread :=
  have hd : nestedGraph.body.height ≤ maxNesting := by decide
  ⟨legible_nestedGraph, regular_nestedGraph, hd, parse_toDot_gathered legible_nestedGraph regular_nestedGraph hd⟩

end DotLang
