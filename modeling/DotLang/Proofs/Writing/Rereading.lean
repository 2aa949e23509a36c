import DotLang.Proofs.Builder.Edges
import DotLang.Proofs.Grammar.Regrouping
import DotLang.Proofs.Grammar.Running
import DotLang.Proofs.Writing.Document

/-!
# What a written graph is read as

Reading goes the way that writing went: a body gets its attributes, its nodes and then its groups, each of
which is complete when it comes in and leaves its nodes in the body. If no name stands twice, none of the
groups meets another of its name, and what is read can be said without a builder: `Graph.reread`.
-/

namespace DotLang
open Grammar

/-! ## Bodies that are filled -/

namespace Subgraph

/-- The group with attributes, nodes and groups put in. -/
def filled (sub : Subgraph) (attrs : Attributes) (nodes : List Node) (children : List Subgraph) : Subgraph :=
  children.foldl adopt { sub with attributes := sub.attributes.merge attrs, nodes := sub.nodes.addAll nodes }

end Subgraph

def Node.bare (node : Node) : Node := { node with attributes := ∅ }

mutual
/-- A group as it is read back. -/
def Subgraph.reread : Subgraph → Subgraph
  | ⟨name, attrs, nodes, children⟩ =>
    (Subgraph.new name).filled attrs (nodes.toList.map Node.bare) (Subgraph.rereadAll children)

def Subgraph.rereadAll : List Subgraph → List Subgraph
  | [] => []
  | child :: rest => child.reread :: Subgraph.rereadAll rest
end

/-- An endpoint as it is read back: a port that is spelled like a side gets the one that is no side. -/
def Endpoint.reread (endpoint : Endpoint) : Endpoint :=
  match endpoint.port, endpoint.compass with
  | some port, none => if (Compass.ofName? port).isSome then { endpoint with compass := some .any } else endpoint
  | _, _ => endpoint

def Edge.reread (edge : Edge) : Edge :=
  { edge with source := edge.source.reread, destination := edge.destination.reread }

/-- A graph as it is read back. -/
def Graph.reread (graph : Graph) : Graph where
  kind := graph.kind
  body := (Subgraph.new graph.name).filled graph.body.attributes graph.nodes.toList
    (Subgraph.rereadAll graph.body.children)
  edges := graph.edges.map Edge.reread

/-! ## Names stay -/

namespace Subgraph

theorem groupNames_adopt (sub newcomer : Subgraph) :
    (sub.adopt newcomer).groupNames = sub.groupNames ++ properNames newcomer.labels :=
  groupNames_pushChild sub newcomer

theorem name_foldl_adopt (children : List Subgraph) (sub : Subgraph) :
    (children.foldl adopt sub).name = sub.name := by
  induction children generalizing sub with
  | nil => rfl
  | cons child rest ih => exact ih _

theorem attributes_foldl_adopt (children : List Subgraph) (sub : Subgraph) :
    (children.foldl adopt sub).attributes = sub.attributes := by
  induction children generalizing sub with
  | nil => rfl
  | cons child rest ih => exact ih _

theorem children_foldl_adopt (children : List Subgraph) (sub : Subgraph) :
    (children.foldl adopt sub).children = sub.children ++ children := by
  induction children generalizing sub with
  | nil => exact (List.append_nil _).symm
  | cons child rest ih => rw [List.foldl_cons, ih, adopt, List.append_assoc]; rfl

theorem names_subset_foldl_adopt (children : List Subgraph) (sub : Subgraph) {name : String}
    (h : name ∈ sub.nodes.names) : name ∈ (children.foldl adopt sub).nodes.names := by
  induction children generalizing sub with
  | nil => exact h
  | cons child rest ih => exact ih _ (NodeMap.mem_names_addAll.2 (Or.inl h))

theorem mem_names_filled (sub : Subgraph) (attrs : Attributes) (children : List Subgraph) {nodes : NodeMap}
    {name : String} (h : name ∈ nodes.names) : name ∈ (sub.filled attrs nodes.toList children).nodes.names :=
  names_subset_foldl_adopt _ _ (NodeMap.mem_names_addAll.2 (Or.inr h))

theorem name_reread (sub : Subgraph) : sub.reread.name = sub.name := by
  cases sub
  rw [reread, filled, name_foldl_adopt]
  rfl

theorem children_reread (sub : Subgraph) : sub.reread.children = rereadAll sub.children := by
  cases sub
  rw [reread, filled, children_foldl_adopt]
  rfl

mutual
theorem groupNames_reread : ∀ sub : Subgraph, sub.reread.groupNames = sub.groupNames
  | ⟨name, attrs, nodes, children⟩ => by
    rw [groupNames, groupNames, labelsBelow_eq, labelsBelow_eq, children_reread]
    exact properNames_rereadAll children

theorem properNames_rereadAll : ∀ subs : List Subgraph,
    properNames ((rereadAll subs).flatMap labels) = properNames (subs.flatMap labels)
  | [] => rfl
  | child :: rest => by
    rw [rereadAll, List.flatMap_cons, List.flatMap_cons, properNames_append, properNames_append,
      properNames_rereadAll rest, properNames_labels, properNames_labels child, name_reread,
      groupNames_reread child]
end

theorem properNames_labels_reread (sub : Subgraph) : properNames sub.reread.labels = properNames sub.labels := by
  rw [properNames_labels, properNames_labels, name_reread, groupNames_reread]

end Subgraph

/-! ## The current body -/

namespace Builder
open Subgraph

theorem modifyCurrent_modifyCurrent (builder : Builder) (f g : Subgraph → Subgraph) :
    (builder.modifyCurrent f).modifyCurrent g = builder.modifyCurrent (g ∘ f) := by
  unfold modifyCurrent
  cases builder.bodies <;> rfl

theorem modifyCurrent_of_eq {builder : Builder} {f : Subgraph → Subgraph} (h : ∀ body, f body = body) :
    builder.modifyCurrent f = builder := by
  obtain rfl : f = id := funext h
  obtain ⟨graph, bodies, scopes⟩ := builder
  cases bodies <;> rfl

/-- No defaults are in force. -/
def Plain (builder : Builder) : Prop := ∀ category, builder.scopes.inherited category = ∅

theorem Plain.enterScope {builder : Builder} (h : builder.Plain) : builder.enterScope.Plain := by
  intro category
  have hflatten (map : ScopedMap String AttrValue) : map.push.flatten = map.flatten := by
    simp [ScopedMap.push, ScopedMap.flatten]
  rw [← h category]
  unfold Scopes.inherited
  cases category <;> exact congrArg (List.foldl _ ∅) (hflatten _)

theorem Plain.openSubgraph {builder : Builder} (h : builder.Plain) {name : String} :
    (builder.openSubgraph name).Plain :=
  h.enterScope

/-- The names that are known: of the groups that are finished, and of those that are open or below one. -/
def knownNames (builder : Builder) : List String :=
  builder.graph.body.groupNames ++ builder.bodies.flatMap fun body => properNames body.labels

theorem ne_empty_of_mem_knownNames {builder : Builder} {name : String} (h : name ∈ builder.knownNames) : name ≠ "" := by
  rw [knownNames, List.mem_append, List.mem_flatMap] at h
  rcases h with h | ⟨body, -, h⟩
  · exact (mem_groupNames.1 h).1
  · exact (mem_properNames.1 h).1

/-- None of the names is known. -/
def Fresh (builder : Builder) (names : List String) : Prop := ∀ name ∈ names, name ∉ builder.knownNames

theorem isKnown_eq_false {builder : Builder} {name : String} (h : name ∉ builder.knownNames) :
    builder.isKnown name = false := by
  rw [← Bool.not_eq_true, isKnown_iff]
  rintro ⟨hne, hk⟩
  rw [knownNames, List.mem_append, List.mem_flatMap, not_or] at h
  rcases hk with hk | ⟨body, hb, hk⟩
  · exact h.1 hk
  · refine h.2 ⟨body, hb, ?_⟩
    rw [properNames_labels]
    rcases hk with rfl | hk
    · rw [if_neg hne]
      exact List.mem_cons_self ..
    · split
      · exact hk
      · exact List.mem_cons_of_mem _ hk

theorem mem_knownNames_modifyCurrent {builder : Builder} {f : Subgraph → Subgraph} {names : List String}
    (hn : ∀ sub, (f sub).name = sub.name) (hg : ∀ sub, (f sub).groupNames = sub.groupNames ++ names) {name : String} :
    name ∈ (builder.modifyCurrent f).knownNames ↔ name ∈ builder.knownNames ∨ name ∈ names := by
  have hlabels (sub : Subgraph) : name ∈ properNames (f sub).labels ↔ name ∈ properNames sub.labels ∨ name ∈ names := by
    rw [properNames_labels, properNames_labels, hn, hg]
    split <;> simp [or_assoc]
  unfold knownNames modifyCurrent
  cases builder.bodies with
  | nil => simp [hg]
  | cons body outer =>
    simp only [List.flatMap_cons, List.mem_append, hlabels]
    tauto

theorem mem_knownNames_openSubgraph {builder : Builder} {opened name : String} :
    name ∈ (builder.openSubgraph opened).knownNames ↔ name ∈ builder.knownNames ∨ opened ≠ "" ∧ name = opened := by
  have hlabels : properNames (Subgraph.new opened (builder.scopes.inherited .graph)).labels =
      if opened = "" then [] else [opened] := by
    rw [properNames_labels, groupNames_new]
    rfl
  show name ∈ builder.graph.body.groupNames ++
    (Subgraph.new opened (builder.scopes.inherited .graph) :: builder.bodies).flatMap _ ↔ _
  rw [List.flatMap_cons, hlabels, knownNames, List.mem_append, List.mem_append, List.mem_append]
  by_cases h : opened = ""
  · simp [h]
  · rw [if_neg h, List.mem_singleton, or_left_comm, or_comm]
    simp [h]

/-! ## Closing -/

/-- A group with a fresh name that is closed goes to the body around it. -/
theorem attach_eq_of_fresh {builder : Builder} {sub : Subgraph} (h : sub.name ∉ builder.knownNames) :
    builder.attach sub = builder.modifyCurrent fun body => body.adopt sub := by
  cases hb : builder.bodies with
  | nil =>
    have hroot : sub.name ∉ builder.graph.body.groupNames := fun hm => h (List.mem_append_left _ hm)
    rw [attach_of_nil hb, Graph.attach, attach_of_unused hroot]
    simp only [modifyCurrent, hb]
  | cons body outer =>
    have hbody : sub.name ∉ body.groupNames := by
      intro hm
      refine h (List.mem_append_right _ (List.mem_flatMap.2 ⟨body, by rw [hb]; exact List.mem_cons_self .., ?_⟩))
      rw [properNames_labels]
      split
      · exact hm
      · exact List.mem_cons_of_mem _ hm
    have hne : builder.bodies ≠ [] := by simp [hb]
    rw [attach_of_returned hne (mergeReopened_of_unknown (isKnown_eq_false h))]
    simp only [modifyCurrent, hb, attach_of_unused hbody]

theorem closeSubgraph_opened {builder : Builder} {name : String} {f : Subgraph → Subgraph} :
    (((builder.openSubgraph name).modifyCurrent f).closeSubgraph).2 =
      builder.attach (f (.new name (builder.scopes.inherited .graph))) := by
  rfl

end Builder

/-! ## Reading statements -/

open Builder

theorem Grammar.Body.run_ofList : ∀ (statements : List (Stmt × Bool)) (builder : Builder),
    (Body.ofList statements).run builder = statements.foldl (fun builder stmt => stmt.1.run builder) builder
  | [], _ => rfl
  | (stmt, _) :: rest, builder => by
    rw [Body.ofList, Body.run, Body.run_ofList rest]
    rfl

theorem text_attributeId (name : String) : (attributeId name).text = name := by
  unfold attributeId
  split <;> rfl

theorem value_id (value : AttrValue) : value.id.ident.value = value := by
  cases value <;> rfl

theorem nameText_nameId (name : String) : nameText (nameId name) = name := by
  unfold nameId
  cases h : name.isEmpty with
  | true => exact (String.isEmpty_iff.1 h).symm
  | false => rfl

theorem attributesOf_assignments {attrs : Attributes} (h : attrs.names.Nodup) :
    attributesOf [attrs.assignments] = attrs := by
  have hattr (attr : Attribute) :
      Assignment.attribute ⟨attributeId attr.name, attr.value.id, .semicolon⟩ = attr := by
    unfold Assignment.attribute
    rw [text_attributeId, value_id]
  unfold attributesOf Attributes.assignments
  rw [List.flatten_singleton, List.foldl_map]
  simp only [hattr]
  exact Attributes.empty_merge h

theorem attributesOf_brackets {attrs : Attributes} (h : attrs.names.Nodup) : attributesOf attrs.brackets = attrs := by
  unfold Attributes.brackets
  split
  · rename_i he
    obtain ⟨entries⟩ := attrs
    cases entries with
    | nil => rfl
    | cons attr rest => cases he
  · exact attributesOf_assignments h

theorem run_attributes (attrs : Attributes) (builder : Builder) :
    attrs.statements.foldl (fun builder stmt => stmt.1.run builder) builder =
      builder.modifyCurrent fun body => { body with attributes := body.attributes.merge attrs } := by
  obtain ⟨entries⟩ := attrs
  unfold Attributes.statements
  rw [List.foldl_map]
  simp only [Stmt.run, text_attributeId, value_id]
  induction entries generalizing builder with
  | nil =>
    refine (modifyCurrent_of_eq ?_).symm
    exact fun ⟨_, _, _, _⟩ => rfl
  | cons attr rest ih =>
    rw [List.foldl_cons, ih, assign, modifyCurrent_modifyCurrent]
    rfl

theorem plain_modifyCurrent {builder : Builder} (h : builder.Plain) (f : Subgraph → Subgraph) :
    (builder.modifyCurrent f).Plain := by
  unfold Plain
  rw [scopes_modifyCurrent]
  exact h

theorem run_nodes {inSubgraph : Bool} {nodes : List Node} {builder : Builder} (hp : builder.Plain)
    (hn : inSubgraph = false → ∀ node ∈ nodes, node.attributes.names.Nodup) :
    (nodes.map (Node.statement inSubgraph)).foldl (fun builder stmt => stmt.1.run builder) builder =
      builder.modifyCurrent fun body =>
        { body with nodes := body.nodes.addAll (nodes.map fun node => if inSubgraph then node.bare else node) } := by
  induction nodes generalizing builder with
  | nil =>
    refine (modifyCurrent_of_eq ?_).symm
    exact fun ⟨_, _, _, _⟩ => rfl
  | cons node rest ih =>
    have hattrs : attributesOf (if inSubgraph then ∅ else node.attributes).brackets =
        if inSubgraph then ∅ else node.attributes := by
      refine attributesOf_brackets ?_
      cases inSubgraph with
      | true => exact List.nodup_nil
      | false => exact hn rfl node (List.mem_cons_self ..)
    have hmerge : (∅ : Attributes).merge (if inSubgraph then ∅ else node.attributes) =
        if inSubgraph then ∅ else node.attributes := by
      refine Attributes.empty_merge ?_
      cases inSubgraph with
      | true => exact List.nodup_nil
      | false => exact hn rfl node (List.mem_cons_self ..)
    have hstep : (Node.statement inSubgraph node).1.run builder = builder.modifyCurrent fun body =>
        body.addNode node.name (if inSubgraph then ∅ else node.attributes) := by
      rw [Node.statement, Stmt.run, hattrs, declareNode, hp .node, hmerge]
      rfl
    rw [List.map_cons, List.foldl_cons, hstep, ih (plain_modifyCurrent hp _) fun hs n hm =>
      hn hs n (List.mem_cons_of_mem _ hm), modifyCurrent_modifyCurrent]
    cases inSubgraph <;> rfl

theorem mem_knownNames_of_same {builder : Builder} {f : Subgraph → Subgraph} (hn : ∀ sub, (f sub).name = sub.name)
    (hc : ∀ sub, (f sub).children = sub.children) {name : String} :
    name ∈ (builder.modifyCurrent f).knownNames ↔ name ∈ builder.knownNames := by
  have hg (sub : Subgraph) : (f sub).groupNames = sub.groupNames ++ [] := by
    rw [List.append_nil, Subgraph.groupNames, Subgraph.labelsBelow_eq, hc, ← Subgraph.labelsBelow_eq]
    rfl
  rw [mem_knownNames_modifyCurrent hn hg]
  simp

/-- What is required of groups so that they are read back: no name stands twice, nor is it known before. -/
structure Distinguished (builder : Builder) (names : List String) : Prop where
  nodup : names.Nodup
  fresh : builder.Fresh names

/-- The same names are known. -/
theorem Distinguished.of_same {a b : Builder} {names : List String} (h : Distinguished a names)
    (hk : ∀ name, name ∈ b.knownNames ↔ name ∈ a.knownNames) : Distinguished b names :=
  ⟨h.nodup, fun name hn hm => h.fresh name hn ((hk name).1 hm)⟩

theorem Distinguished.later {a b : Builder} {first later : List String} (h : Distinguished a (first ++ later))
    (hk : ∀ name, name ∈ b.knownNames → name ∈ a.knownNames ∨ name ∈ first) : Distinguished b later := by
  obtain ⟨-, hl, hd⟩ := List.nodup_append.1 h.nodup
  refine ⟨hl, fun name hn hm => ?_⟩
  rcases hk name hm with hm | hm
  · exact h.fresh name (List.mem_append_right _ hn) hm
  · exact hd name hm name hn rfl

theorem Distinguished.earlier {a : Builder} {first later : List String} (h : Distinguished a (first ++ later)) :
    Distinguished a first :=
  ⟨(List.nodup_append.1 h.nodup).1, fun name hn => h.fresh name (List.mem_append_left _ hn)⟩

mutual
theorem run_statements (inSubgraph : Bool) : ∀ (sub : Subgraph) (builder : Builder), builder.Plain →
    Distinguished builder sub.groupNames →
    (inSubgraph = false → ∀ node ∈ sub.nodes.toList, node.attributes.names.Nodup) →
    (∀ group ∈ sub.descendants, group.attributes.names.Nodup) →
    (sub.statements inSubgraph).foldl (fun builder stmt => stmt.1.run builder) builder =
      builder.modifyCurrent fun body => body.filled sub.attributes
        (sub.nodes.toList.map fun node => if inSubgraph then node.bare else node) (Subgraph.rereadAll sub.children)
  | ⟨name, attrs, nodes, children⟩, builder, hp, hd, hn, ha => by
    rw [Subgraph.groupNames, Subgraph.labelsBelow_eq] at hd
    have hgroups (f : Subgraph → Subgraph) (hf : ∀ sub, (f sub).name = sub.name)
        (hc : ∀ sub, (f sub).children = sub.children) :=
      run_children children (builder.modifyCurrent f) (plain_modifyCurrent hp f)
        (hd.of_same fun name => mem_knownNames_of_same hf hc) ha
    rw [Subgraph.statements, List.foldl_append, List.foldl_append, run_attributes,
      run_nodes (plain_modifyCurrent hp _) hn, modifyCurrent_modifyCurrent, hgroups, modifyCurrent_modifyCurrent]
    · rfl
    · exact fun _ => rfl
    · exact fun _ => rfl

theorem run_children : ∀ (children : List Subgraph) (builder : Builder), builder.Plain →
    Distinguished builder (Subgraph.properNames (children.flatMap Subgraph.labels)) →
    (∀ group ∈ children.flatMap Subgraph.hierarchy, group.attributes.names.Nodup) →
    (Subgraph.groupStatements children).foldl (fun builder stmt => stmt.1.run builder) builder =
      builder.modifyCurrent fun body => (Subgraph.rereadAll children).foldl Subgraph.adopt body
  | [], builder, _, _, _ => by
    refine (modifyCurrent_of_eq ?_).symm
    exact fun _ => rfl
  | child :: rest, builder, hp, hd, ha => by
    rw [List.flatMap_cons, Subgraph.properNames_append] at hd
    rw [List.flatMap_cons, List.forall_mem_append] at ha
    have hattrs := ha.1 _ (Subgraph.self_mem_hierarchy _)
    -- Behind the opened body nothing but its own name is known beyond what was.
    have hopened : Distinguished (builder.openSubgraph child.name) child.groupNames := by
      have hchild := hd.earlier
      rw [Subgraph.properNames_labels] at hchild
      refine ⟨?_, fun name hn hm => ?_⟩
      · split at hchild
        · exact hchild.nodup
        · exact (List.nodup_cons.1 hchild.nodup).2
      · rcases mem_knownNames_openSubgraph.1 hm with hm | ⟨hne, rfl⟩
        · refine hchild.fresh name ?_ hm
          split
          · exact hn
          · exact List.mem_cons_of_mem _ hn
        · rw [if_neg hne] at hchild
          exact (List.nodup_cons.1 hchild.nodup).1 hn
    have hbody := run_statements true child _ hp.openSubgraph hopened nofun fun group hg =>
      ha.1 group (by rw [Subgraph.hierarchy_eq]; exact List.mem_cons_of_mem _ hg)
    have hchild : (Stmt.group (.braced (.keyword (nameId child.name)) (.ofList (child.statements true)))).run builder =
        builder.modifyCurrent fun body => body.adopt child.reread := by
      have hread : (Subgraph.new child.name (builder.scopes.inherited .graph)).filled child.attributes
          (child.nodes.toList.map fun node => if true then node.bare else node) (Subgraph.rereadAll child.children) =
          child.reread := by
        rw [hp .graph]
        cases child
        rfl
      rw [Stmt.run, Group.run, Head.name, nameText_nameId, Body.run_ofList, hbody, closeSubgraph_opened, hread]
      refine attach_eq_of_fresh fun hm => ?_
      rw [Subgraph.name_reread] at hm
      have hfirst := hd.earlier.fresh child.name
      rw [Subgraph.properNames_labels, if_neg (ne_empty_of_mem_knownNames hm)] at hfirst
      exact hfirst (List.mem_cons_self ..) hm
    rw [Subgraph.groupStatements, List.foldl_cons, hchild, run_children rest _ (plain_modifyCurrent hp _) ?_ ha.2,
      modifyCurrent_modifyCurrent]
    · rfl
    · refine hd.later fun name hm => ?_
      rw [← Subgraph.properNames_labels_reread]
      exact (mem_knownNames_modifyCurrent (f := fun body => body.adopt child.reread) (fun _ => rfl)
        fun sub => Subgraph.groupNames_adopt sub child.reread).1 hm
end

/-! ## Reading edges -/

theorem reread_nodeId (endpoint : Endpoint) : endpoint.nodeId.endpoint = endpoint.reread := by
  obtain ⟨node, port, compass⟩ := endpoint
  unfold Endpoint.nodeId Endpoint.written? Endpoint.reread NodeId.endpoint
  cases port with
  | none =>
    cases compass with
    | none => rfl
    | some compass => cases compass <;> rfl
  | some port =>
    cases compass with
    | some compass => rfl
    | none =>
      dsimp only
      split <;> rfl

theorem node_reread (endpoint : Endpoint) : endpoint.reread.node = endpoint.node := by
  unfold Endpoint.reread
  split
  · split <;> rfl
  · rfl

theorem samePair_reread {directed : Bool} {a b : Edge} :
    a.reread.SamePair directed b.reread ↔ a.SamePair directed b := by
  unfold Edge.SamePair Edge.reread
  simp only [node_reread]

/-- An edge that joins what no edge joins comes last, in a strict graph too. -/
theorem insertStrict_of_new {directed : Bool} {edge : Edge} : ∀ {edges : List Edge},
    (∀ old ∈ edges, ¬ old.SamePair directed edge) → Graph.insertStrict directed edge edges = edges ++ [edge]
  | [], _ => rfl
  | first :: rest, h => by
    rw [List.forall_mem_cons] at h
    unfold Graph.insertStrict
    rw [if_neg (fun hc => h.1 (Edge.connects_iff.1 hc)), insertStrict_of_new h.2]
    rfl

theorem touchNode_of_mem {builder : Builder} (hb : builder.bodies = []) {name : String}
    (h : name ∈ builder.graph.nodes.names) : builder.touchNode name = builder := by
  unfold touchNode
  simp only [if_pos (NodeMap.contains_iff.2 h), hb]

/-- The builder with other edges. -/
def Builder.putEdges (builder : Builder) (edges : List Edge) : Builder :=
  { builder with graph := { builder.graph with edges } }

theorem run_edge {builder : Builder} (hb : builder.bodies = []) (hp : builder.Plain) {edge : Edge}
    (hs : edge.source.node ∈ builder.graph.nodes.names) (hd : edge.destination.node ∈ builder.graph.nodes.names)
    (ha : edge.attributes.names.Nodup)
    (hn : builder.graph.kind.strict = true →
      ∀ old ∈ builder.graph.edges, ¬ old.SamePair builder.graph.kind.directed edge.reread) (directed : Bool) :
    (edge.statement directed).1.run builder = builder.putEdges (builder.graph.edges ++ [edge.reread]) := by
  have hadd := @addEdge_eq builder.graph edge.reread
    (by unfold Edge.reread; rwa [node_reread]) (by unfold Edge.reread; rwa [node_reread])
  have hedges : (if builder.graph.kind.strict then
      Graph.insertStrict builder.graph.kind.directed edge.reread builder.graph.edges
      else builder.graph.edges ++ [edge.reread]) = builder.graph.edges ++ [edge.reread] := by
    split
    · rename_i hk
      exact insertStrict_of_new (hn hk)
    · rfl
  have hmerge : (builder.scopes.inherited .edge).merge (attributesOf edge.attributes.brackets) = edge.attributes := by
    rw [hp .edge, attributesOf_brackets ha, Attributes.empty_merge ha]
  rw [Edge.statement, Stmt.run]
  show builder.connect [.node edge.source.nodeId.endpoint, .node edge.destination.nodeId.endpoint] _ = _
  unfold connect
  rw [hmerge, reread_nodeId, reread_nodeId]
  show builder.addEdge edge.attributes edge.source.reread edge.destination.reread = _
  unfold addEdge
  rw [touchNode_of_mem hb (by rwa [node_reread]), touchNode_of_mem hb (by rwa [node_reread])]
  show { builder with graph := builder.graph.addEdge edge.reread } = _
  rw [hadd, hedges]
  rfl

theorem run_edges (directed : Bool) : ∀ (edges : List Edge) (builder : Builder), builder.bodies = [] → builder.Plain →
    (∀ edge ∈ edges, edge.source.node ∈ builder.graph.nodes.names ∧
      edge.destination.node ∈ builder.graph.nodes.names ∧ edge.attributes.names.Nodup) →
    (builder.graph.kind.strict = true → (builder.graph.edges ++ edges.map Edge.reread).Pairwise fun a b =>
      ¬ a.SamePair builder.graph.kind.directed b) →
    (edges.map (Edge.statement directed)).foldl (fun builder stmt => stmt.1.run builder) builder =
      builder.putEdges (builder.graph.edges ++ edges.map Edge.reread)
  | [], builder, _, _, _, _ => by
    rw [List.map_nil, List.map_nil, List.append_nil]
    rfl
  | edge :: rest, builder, hb, hp, he, hs => by
    rw [List.forall_mem_cons] at he
    obtain ⟨⟨hsource, hdestination, ha⟩, hrest⟩ := he
    have hnew (hk : builder.graph.kind.strict = true) (old : Edge) (ho : old ∈ builder.graph.edges) :
        ¬ old.SamePair builder.graph.kind.directed edge.reread :=
      (List.pairwise_append.1 (hs hk)).2.2 old ho _ (List.mem_cons_self ..)
    have hgrown : (builder.graph.edges ++ [edge.reread]) ++ rest.map Edge.reread =
        builder.graph.edges ++ (edge :: rest).map Edge.reread := by
      rw [List.append_assoc]
      rfl
    have hlater := run_edges directed rest (builder.putEdges (builder.graph.edges ++ [edge.reread])) hb hp hrest
      fun hk => hgrown ▸ hs hk
    rw [List.map_cons, List.foldl_cons, run_edge hb hp hsource hdestination ha hnew, hlater]
    exact congrArg builder.putEdges hgrown

/-! ## Reading a graph -/

/-- What is required of a graph so that it is read back: what the operations on graphs guarantee, and that
no two groups have one name. -/
structure Graph.Regular (graph : Graph) : Prop where
  attributes : ∀ group ∈ graph.body.hierarchy, group.attributes.names.Nodup
  nodes : ∀ node ∈ graph.nodes.toList, node.attributes.names.Nodup
  edges : ∀ edge ∈ graph.edges, edge.source.node ∈ graph.nodes.names ∧
    edge.destination.node ∈ graph.nodes.names ∧ edge.attributes.names.Nodup
  single : graph.kind.strict = true → graph.edges.Pairwise fun a b => ¬ a.SamePair graph.kind.directed b
  distinct : graph.body.groupNames.Nodup

theorem graph_document {graph : Graph} (h : graph.Regular) : graph.document.graph = graph.reread := by
  let start := (Builder.new graph.name graph.kind).enterScope
  have hplain : start.Plain := fun category => by cases category <;> rfl
  have hdistinct : Distinguished start graph.body.groupNames := ⟨h.distinct, fun name _ hm => by
    have hnone : start.knownNames = [] := by
      show (Subgraph.new graph.name).groupNames ++ [] = []
      rw [groupNames_new]
      rfl
    rw [hnone] at hm
    cases hm⟩
  have hbody := run_statements false graph.body start hplain hdistinct (fun _ => h.nodes) fun group hg =>
    h.attributes group (by rw [Subgraph.hierarchy_eq]; exact List.mem_cons_of_mem _ hg)
  let filled := (Subgraph.new graph.name).filled graph.body.attributes graph.nodes.toList
    (Subgraph.rereadAll graph.body.children)
  let built : Builder := { start with graph := { start.graph with body := filled } }
  have hbuilt : (graph.body.statements false).foldl (fun builder stmt => stmt.1.run builder) start = built := by
    rw [hbody]
    simp only [Bool.false_eq_true, if_false, List.map_id']
    rfl
  have hmem (name : String) (hn : name ∈ graph.nodes.names) : name ∈ built.graph.nodes.names :=
    Subgraph.mem_names_filled _ _ _ hn
  have hedges := run_edges graph.kind.directed graph.edges built rfl hplain
    (fun edge he => ⟨hmem _ (h.edges edge he).1, hmem _ (h.edges edge he).2.1, (h.edges edge he).2.2⟩) fun hk => by
      show ([] ++ graph.edges.map Edge.reread).Pairwise _
      rw [List.nil_append, List.pairwise_map]
      exact (h.single hk).imp fun hp => mt samePair_reread.1 hp
  have hfinished : graph.document.finished = built.putEdges (graph.edges.map Edge.reread) := by
    show (Body.ofList _).run (Builder.new (nameText (nameId graph.name)) graph.kind).enterScope = _
    rw [nameText_nameId, Body.run_ofList, List.foldl_append, hbuilt, hedges]
    rfl
  rw [Document.graph, hfinished]
  rfl

end DotLang
