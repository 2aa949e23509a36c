import DotLang.Proofs.Builder.Built

/-!
# What a node has in a tree

A node may be in many groups of a tree, with other attributes in each. When the nodes of a tree are added
to a body, all of them are merged there in the order of the hierarchy.
-/

namespace DotLang

open Attributes

namespace NodeMap

theorem addAll_append (map : NodeMap) (a b : List Node) : map.addAll (a ++ b) = (map.addAll a).addAll b :=
  List.foldl_append ..

end NodeMap

namespace Subgraph

/-- The attributes of a node in each group of the tree, in the order of the hierarchy. -/
def values (node : String) (sub : Subgraph) : List Attributes := sub.labels.map fun label => label.2.2.attrsOf node

/-- Those in the groups below the tree's root. -/
def valuesBelow (node : String) (sub : Subgraph) : List Attributes :=
  sub.labelsBelow.map fun label => label.2.2.attrsOf node

section
variable {node : String}

theorem values_eq (sub : Subgraph) : sub.values node = sub.nodes.attrsOf node :: sub.valuesBelow node := by
  unfold values
  rw [labels_eq, List.map_cons]
  rfl

theorem valuesBelow_eq (sub : Subgraph) : sub.valuesBelow node = sub.children.flatMap (values node) := by
  unfold valuesBelow
  rw [labelsBelow_eq, List.map_flatMap]
  rfl

theorem Built.nodup_values {P : Attribute → Prop} {sub : Subgraph} (h : sub.Built P) :
    ∀ value ∈ sub.values node, value.names.Nodup := by
  intro value hv
  obtain ⟨label, hl, rfl⟩ := List.mem_map.1 hv
  exact (h label hl).2.nodup_attrsOf node

theorem attrsOf_addAll_groups : ∀ (groups : List Subgraph) (map : NodeMap),
    (∀ group ∈ groups, (group.nodes.attrsOf node).names.Nodup) →
      (map.addAll (groups.flatMap fun group => group.nodes.toList)).attrsOf node =
        (groups.map fun group => group.nodes.attrsOf node).foldl merge (map.attrsOf node)
  | [], _, _ => rfl
  | group :: rest, map, h => by
    rw [List.forall_mem_cons] at h
    rw [List.flatMap_cons, NodeMap.addAll_append, attrsOf_addAll_groups rest _ h.2,
      NodeMap.attrsOf_addAll_toList h.1]
    rfl

/-- Adding the nodes of a tree merges what a node has in its groups. -/
theorem attrsOf_addAll_allNodes {sub : Subgraph} (h : ∀ value ∈ sub.values node, value.names.Nodup)
    (map : NodeMap) :
    (map.addAll sub.allNodes).attrsOf node = (map.attrsOf node).merge (mergeAll (sub.values node)) := by
  have hgroups : ∀ group ∈ sub.hierarchy, (group.nodes.attrsOf node).names.Nodup := by
    intro group hg
    apply h
    unfold values labels
    rw [List.map_map]
    exact List.mem_map_of_mem hg
  rw [mergeAll, merge_foldl nodup_names_empty, merge_empty, values, labels, List.map_map]
  exact attrsOf_addAll_groups sub.hierarchy map hgroups

end

end Subgraph

end DotLang
