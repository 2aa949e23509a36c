import DotLang.Graph.Edit
import DotLang.Proofs.Builder.Edges
import DotLang.Proofs.Everywhere
import Mathlib.Data.List.Flatten

/-!
# Edited graphs are consistent

No sequence of edits leaves an edge without its nodes, or a group with a node that the graph does not have,
or joins two nodes of a strict graph twice. Whatever the trees are that are attached: their nodes come into
the root first, and nothing but the removal of a node takes one out of it, everywhere at once.
-/

namespace DotLang

namespace Subgraph

/-- The nodes of all groups in a tree are among the names. -/
def Within (names : List String) (sub : Subgraph) : Prop :=
  sub.All fun label => ∀ name ∈ label.2.2.names, name ∈ names

section
variable {names : List String}

theorem within_iff {sub : Subgraph} : sub.Within names ↔ ∀ name ∈ sub.memberNames, name ∈ names := by
  unfold Within All memberNames
  rw [List.forall_mem_flatMap]

theorem within_merge : KeptByMerging fun label : Label => ∀ name ∈ label.2.2.names, name ∈ names := by
  intro a b ha hb name hn
  rcases NodeMap.mem_names_addAll.1 hn with hn | hn
  · exact ha name hn
  · exact hb name hn

theorem Within.mono {sub : Subgraph} {more : List String} (h : sub.Within names)
    (hm : ∀ name ∈ names, name ∈ more) : sub.Within more :=
  fun label hl name hn => hm name (h label hl name hn)

theorem Within.withNodes {sub : Subgraph} (h : sub.Within names) {nodes : NodeMap}
    (hn : ∀ name ∈ nodes.names, name ∈ names) : Subgraph.Within names { sub with nodes } :=
  all_iff.2 ⟨hn, (all_iff.1 h).2⟩

end

/-! ## Attaching -/

theorem Within.attachUnder {sub newcomer result : Subgraph} {parent : Option String}
    (h : sub.Within sub.nodes.names) (hr : sub.attachUnder parent newcomer = some result) :
    result.Within result.nodes.names := by
  have hnames : ∀ name, name ∈ result.nodes.names ↔ name ∈ sub.nodes.names ∨ name ∈ newcomer.memberNames := by
    intro name
    rw [nodes_attachUnder hr, NodeMap.mem_names_addAll, memberNames_eq]
  have hroot : Subgraph.Within result.nodes.names { sub with nodes := sub.nodes.addAll newcomer.allNodes } := by
    refine (h.mono fun name hn => (hnames name).2 (Or.inl hn)).withNodes fun name hn => ?_
    rwa [nodes_attachUnder hr]
  exact All.attachUnder within_merge hroot (within_iff.2 fun name hn => (hnames name).2 (Or.inr hn)) hr

/-! ## Taking out a group -/

mutual
theorem detachBelow?_eq_some {name : String} {found : Subgraph} : ∀ {sub left : Subgraph},
    detachBelow? name sub = some (found, left) →
      left.label = sub.label ∧ left.labelsBelow.Sublist sub.labelsBelow
  | ⟨own, attrs, nodes, children⟩, left, h => by
    rw [detachBelow?] at h
    simp only [labelsBelow_eq]
    split at h
    · obtain ⟨rfl, rfl⟩ := Prod.mk.inj (Option.some.inj h)
      exact ⟨rfl, List.eraseP_sublist.flatMap labels⟩
    · obtain ⟨⟨_, rest⟩, hd, he⟩ := Option.map_eq_some_iff.1 h
      obtain ⟨rfl, rfl⟩ := Prod.mk.inj he
      exact ⟨rfl, detachFirst?_eq_some hd⟩

theorem detachFirst?_eq_some {name : String} {found : Subgraph} : ∀ {subs left : List Subgraph},
    detachFirst? name subs = some (found, left) → (left.flatMap labels).Sublist (subs.flatMap labels)
  | [], _, h => by rw [detachFirst?] at h; cases h
  | child :: rest, left, h => by
    rw [detachFirst?] at h
    split at h
    · rename_i found' child' hd
      obtain ⟨rfl, rfl⟩ := Prod.mk.inj (Option.some.inj h)
      obtain ⟨hl, hb⟩ := detachBelow?_eq_some hd
      rw [List.flatMap_cons, List.flatMap_cons, labels_eq, labels_eq, hl]
      exact (hb.cons_cons _).append_right _
    · obtain ⟨⟨_, rest'⟩, hd, he⟩ := Option.map_eq_some_iff.1 h
      obtain ⟨rfl, rfl⟩ := Prod.mk.inj he
      rw [List.flatMap_cons, List.flatMap_cons]
      exact (detachFirst?_eq_some hd).append_left _
end

theorem detach?_eq_some {sub found left : Subgraph} {name : String} (h : sub.detach? name = some (found, left)) :
    left.label = sub.label ∧ left.labelsBelow.Sublist sub.labelsBelow := by
  unfold detach? at h
  split at h
  · cases h
  · exact detachBelow?_eq_some h

theorem Within.detach? {sub found left : Subgraph} {name : String} (h : sub.Within sub.nodes.names)
    (hd : sub.detach? name = some (found, left)) : left.Within left.nodes.names := by
  obtain ⟨hl, hb⟩ := detach?_eq_some hd
  have hn : left.nodes = sub.nodes := congrArg (·.2.2) hl
  rw [hn]
  intro label hm
  apply h
  rw [labels_eq] at hm ⊢
  rw [hl] at hm
  exact (hb.cons_cons sub.label).subset hm

/-! ## Removing a node -/

mutual
theorem labels_purge (name : String) : ∀ sub : Subgraph,
    (purge name sub).labels = sub.labels.map fun label => (label.1, label.2.1, label.2.2.erase name)
  | ⟨own, attrs, nodes, children⟩ => by
    rw [purge]
    simp only [labels_eq, labelsBelow_eq, List.map_cons]
    rw [labels_purgeAll name children]
    rfl

theorem labels_purgeAll (name : String) : ∀ subs : List Subgraph,
    (purgeAll name subs).flatMap labels =
      (subs.flatMap labels).map fun label => (label.1, label.2.1, label.2.2.erase name)
  | [] => rfl
  | child :: rest => by
    rw [purgeAll, List.flatMap_cons, List.flatMap_cons, List.map_append, labels_purge name child,
      labels_purgeAll name rest]
end

theorem nodes_purge (name : String) (sub : Subgraph) : (purge name sub).nodes = sub.nodes.erase name := by
  cases sub
  rw [purge]

theorem Within.purge {sub : Subgraph} (h : sub.Within sub.nodes.names) (name : String) :
    (sub.purge name).Within (sub.purge name).nodes.names := by
  intro label hl other ho
  rw [labels_purge] at hl
  obtain ⟨old, hold, rfl⟩ := List.mem_map.1 hl
  rw [NodeMap.mem_names_erase] at ho
  rw [nodes_purge, NodeMap.mem_names_erase]
  exact ⟨h old hold other ho.1, ho.2⟩

end Subgraph

namespace Graph

/-! ## Edges -/

theorem EdgesFit.sublist {a b : Graph} (h : EdgesFit a) (hk : b.kind = a.kind) (hs : b.edges.Sublist a.edges)
    (hn : ∀ edge ∈ b.edges, edge.source.node ∈ b.nodes.names ∧ edge.destination.node ∈ b.nodes.names) :
    EdgesFit b where
  ends := hn
  single hstrict := by
    rw [hk] at hstrict ⊢
    exact (h.single hstrict).sublist hs

/-- Where an edge meets its nodes, and nothing of its attributes. -/
def joint (edge : Edge) : Endpoint × Endpoint := (edge.source, edge.destination)

theorem map_joint_modify (f : Attributes → Attributes) (edges : List Edge) (i : Nat) :
    (edges.modify i fun edge => { edge with attributes := f edge.attributes }).map joint = edges.map joint := by
  apply List.ext_getElem?
  intro j
  simp only [List.getElem?_map, List.getElem?_modify]
  by_cases hi : i = j
  · simp only [hi, if_true, Option.map_eq_map, Option.map_map]
    rfl
  · simp [hi]

theorem EdgesFit.of_joints {a b : Graph} (h : EdgesFit a) (hk : b.kind = a.kind) (hb : b.body = a.body)
    (he : b.edges.map joint = a.edges.map joint) : EdgesFit b := by
  let Joined (pair : Endpoint × Endpoint) : Prop := pair.1.node ∈ a.nodes.names ∧ pair.2.node ∈ a.nodes.names
  let Apart (p q : Endpoint × Endpoint) : Prop :=
    ¬ Edge.SamePair a.kind.directed ⟨p.1, p.2, ∅⟩ ⟨q.1, q.2, ∅⟩
  constructor
  · have hall : ∀ pair ∈ a.edges.map joint, Joined pair := List.forall_mem_map.2 h.ends
    rw [← he, List.forall_mem_map] at hall
    intro edge hm
    rw [show b.nodes = a.nodes from congrArg Subgraph.nodes hb]
    exact hall edge hm
  · intro hstrict
    rw [hk] at hstrict ⊢
    have hall : (a.edges.map joint).Pairwise Apart := List.pairwise_map.2 (h.single hstrict)
    rw [← he] at hall
    exact List.pairwise_map.1 hall

/-! ## Edits -/

/-- The nodes of groups and the ends of edges are in the root, and a strict graph joins no two nodes twice. -/
structure Consistent (graph : Graph) : Prop where
  members : ∀ group ∈ graph.body.hierarchy, ∀ name ∈ group.nodes.names, name ∈ graph.nodes.names
  ends : ∀ edge ∈ graph.edges, edge.source.node ∈ graph.nodes.names ∧ edge.destination.node ∈ graph.nodes.names
  single : graph.kind.strict = true → graph.edges.Pairwise fun a b => ¬ a.SamePair graph.kind.directed b

theorem consistent_iff {graph : Graph} :
    graph.Consistent ↔ graph.body.Within graph.body.nodes.names ∧ graph.EdgesFit := by
  have hw : graph.body.Within graph.body.nodes.names ↔
      ∀ group ∈ graph.body.hierarchy, ∀ name ∈ group.nodes.names, name ∈ graph.nodes.names := by
    unfold Subgraph.Within Subgraph.All Subgraph.labels
    rw [List.forall_mem_map]
    rfl
  rw [hw]
  exact ⟨fun h => ⟨h.members, h.ends, h.single⟩, fun h => ⟨h.1, h.2.ends, h.2.single⟩⟩

theorem consistent_new (name : String) (kind : GraphKind) : (Graph.new name kind).Consistent := by
  rw [consistent_iff]
  exact ⟨Subgraph.all_iff.2 ⟨nofun, nofun⟩, fun edge he => absurd he List.not_mem_nil, fun _ => .nil⟩

section
variable {graph : Graph}

/-- A tree that keeps to its root and has the nodes of the old one may take its place. -/
theorem Consistent.withBody (h : graph.Consistent) {body : Subgraph} (hw : body.Within body.nodes.names)
    (hn : ∀ name ∈ graph.nodes.names, name ∈ body.nodes.names) : Consistent { graph with body } := by
  rw [consistent_iff] at h ⊢
  exact ⟨hw, h.2.mono rfl rfl hn⟩

theorem Consistent.within (h : graph.Consistent) : graph.body.Within graph.body.nodes.names :=
  (consistent_iff.1 h).1

theorem Consistent.addNode (h : graph.Consistent) (name : String) (attrs : Attributes) :
    (graph.addNode name attrs).Consistent := by
  have hn : ∀ other ∈ graph.nodes.names, other ∈ (graph.body.addNode name attrs).nodes.names :=
    fun other ho => NodeMap.mem_names_add.2 (Or.inl ho)
  exact h.withBody ((h.within.mono hn).withNodes fun _ => id) hn

theorem Consistent.ensureNode (h : graph.Consistent) (name : String) : (graph.ensureNode name).Consistent := by
  unfold Graph.ensureNode
  split
  · exact h
  · exact h.addNode name ∅

theorem mem_ensureNode {name other : String} :
    other ∈ (graph.ensureNode name).nodes.names ↔ other ∈ graph.nodes.names ∨ other = name := by
  unfold ensureNode
  split
  · rename_i hc
    refine ⟨Or.inl, ?_⟩
    rintro (ho | rfl)
    · exact ho
    · exact NodeMap.contains_iff.1 hc
  · exact NodeMap.mem_names_add

theorem ensureNode_of_mem {name : String} (h : name ∈ graph.nodes.names) : graph.ensureNode name = graph :=
  if_pos (NodeMap.contains_iff.2 h)

theorem ends_ensured (edge : Edge) :
    edge.source.node ∈ ((graph.ensureNode edge.source.node).ensureNode edge.destination.node).nodes.names ∧
      edge.destination.node ∈ ((graph.ensureNode edge.source.node).ensureNode edge.destination.node).nodes.names :=
  ⟨mem_ensureNode.2 (Or.inl (mem_ensureNode.2 (Or.inr rfl))), mem_ensureNode.2 (Or.inr rfl)⟩

theorem addEdge_ensured (edge : Edge) :
    ((graph.ensureNode edge.source.node).ensureNode edge.destination.node).addEdge edge = graph.addEdge edge := by
  obtain ⟨hs, hd⟩ := graph.ends_ensured edge
  unfold addEdge
  rw [ensureNode_of_mem hs, ensureNode_of_mem hd]

theorem Consistent.addEdge (h : graph.Consistent) (edge : Edge) : (graph.addEdge edge).Consistent := by
  have hready := (h.ensureNode edge.source.node).ensureNode edge.destination.node
  obtain ⟨hs, hd⟩ := graph.ends_ensured edge
  -- The nodes of an edge come first; after that, it is one between nodes that are there.
  rw [← addEdge_ensured]
  rw [consistent_iff] at hready ⊢
  refine ⟨?_, hready.2.addEdge hs hd⟩
  rw [Builder.addEdge_eq hs hd]
  exact hready.1

/-- One edit keeps a graph consistent. -/
theorem Consistent.apply (h : graph.Consistent) : ∀ edit : Edit, (graph.apply edit).Consistent
  | .setAttribute name value => by
    show ((graph.setAttribute name value).toOption.getD graph).Consistent
    unfold Graph.setAttribute
    cases graph.body.attributes.set name value with
    | error error => exact h
    | ok attributes => exact h.withBody (Subgraph.all_iff.2 (Subgraph.all_iff.1 h.within)) fun _ => id
  | .addNode name attrs => h.addNode name attrs
  | .modifyNode name f => by
    have hn : ∀ other, other ∈ (graph.nodes.modify name f).names ↔ other ∈ graph.nodes.names := by
      intro other
      rw [NodeMap.names_modify]
    exact h.withBody ((h.within.mono fun other => (hn other).2).withNodes fun _ => id) fun other => (hn other).2
  | .eraseNode name => by
    have hnodes : (graph.eraseNode name).nodes = graph.nodes.erase name := Subgraph.nodes_purge name graph.body
    have hfit := (consistent_iff.1 h).2
    refine consistent_iff.2 ⟨h.within.purge name, hfit.sublist rfl List.filter_sublist fun edge he => ?_⟩
    obtain ⟨hold, ht⟩ := List.mem_filter.1 he
    show _ ∈ (graph.eraseNode name).nodes.names ∧ _ ∈ (graph.eraseNode name).nodes.names
    rw [hnodes, NodeMap.mem_names_erase, NodeMap.mem_names_erase]
    simp only [Edge.touches, Bool.not_eq_true', Bool.or_eq_false_iff, beq_eq_false_iff_ne] at ht
    exact ⟨⟨(h.ends edge hold).1, ht.1⟩, ⟨(h.ends edge hold).2, ht.2⟩⟩
  | .addEdge source destination attrs => h.addEdge _
  | .modifyEdge a b f => by
    rw [consistent_iff] at h ⊢
    exact ⟨h.1, h.2.of_joints rfl rfl (map_joint_modify ..)⟩
  | .eraseEdge a b => by
    refine consistent_iff.2 ⟨h.within, (consistent_iff.1 h).2.sublist rfl List.eraseP_sublist fun edge he => ?_⟩
    exact h.ends edge (List.mem_of_mem_eraseP he)
  | .attach sub => by
    have ha := Subgraph.attachUnder_none graph.body sub
    refine h.withBody (h.within.attachUnder ha) fun name hn => ?_
    rw [Subgraph.nodes_attachUnder ha, NodeMap.mem_names_addAll]
    exact Or.inl hn
  | .attachUnder parent sub => by
    show ((graph.attachUnder? parent sub).getD graph).Consistent
    unfold Graph.attachUnder?
    cases ha : graph.body.attachUnder (some parent) sub with
    | none => exact h
    | some body =>
      refine h.withBody (h.within.attachUnder ha) fun name hn => ?_
      rw [Subgraph.nodes_attachUnder ha, NodeMap.mem_names_addAll]
      exact Or.inl hn
  | .detach name => by
    show (((graph.detach? name).map Prod.snd).getD graph).Consistent
    unfold Graph.detach?
    cases hd : graph.body.detach? name with
    | none => exact h
    | some pair =>
      refine h.withBody (h.within.detach? hd) fun other ho => ?_
      rwa [show pair.2.nodes = graph.body.nodes from congrArg (·.2.2) (Subgraph.detach?_eq_some hd).1]

theorem kind_ensureNode (name : String) : (graph.ensureNode name).kind = graph.kind := by
  unfold ensureNode
  split <;> rfl

theorem kind_apply (edit : Edit) : (graph.apply edit).kind = graph.kind := by
  cases edit with
  | setAttribute name value =>
    show ((graph.setAttribute name value).toOption.getD graph).kind = graph.kind
    unfold setAttribute
    cases graph.body.attributes.set name value <;> rfl
  | addEdge source destination attrs =>
    show (graph.addEdge _).kind = _
    unfold addEdge
    dsimp only
    split
    · rw [kind_ensureNode, kind_ensureNode]
    · rw [kind_ensureNode, kind_ensureNode]
  | attachUnder parent sub =>
    show ((graph.attachUnder? parent sub).getD graph).kind = graph.kind
    unfold attachUnder?
    cases graph.body.attachUnder (some parent) sub <;> rfl
  | detach name =>
    show (((graph.detach? name).map Prod.snd).getD graph).kind = graph.kind
    unfold Graph.detach?
    cases graph.body.detach? name <;> rfl
  | _ => rfl

end

/-- Every sequence of edits keeps the kind of a graph, and keeps it consistent. -/
theorem consistent_run (name : String) (kind : GraphKind) (edits : List Edit) :
    ((Graph.new name kind).run edits).kind = kind ∧ ((Graph.new name kind).run edits).Consistent := by
  have hrun (edits : List Edit) (graph : Graph) (hk : graph.kind = kind) (h : graph.Consistent) :
      (graph.run edits).kind = kind ∧ (graph.run edits).Consistent := by
    induction edits generalizing graph with
    | nil => exact ⟨hk, h⟩
    | cons edit edits ih => exact ih (graph.apply edit) ((kind_apply edit).trans hk) (h.apply edit)
  exact hrun edits _ rfl (consistent_new name kind)

end Graph

end DotLang
