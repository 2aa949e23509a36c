import DotLang.Proofs.Builder.Edges
import DotLang.Proofs.Everywhere

/-!
# The attributes that a builder holds

A builder makes its collections by inserting what it is given, one attribute after the other, so no name
stands twice in any of them; and what is true of all attributes that it is given is true of those of the
groups, the nodes and the edges, and of the defaults.
-/

namespace DotLang

section
variable {P : Attribute → Prop}

/-! ## Nodes -/

namespace NodeMap

theorem built_declare {name : String} {attrs : Attributes} (ha : attrs.Built P) : ∀ {nodes : List Node},
    (∀ node ∈ nodes, node.attributes.Built P) → ∀ node ∈ declare name attrs nodes, node.attributes.Built P
  | [], _ => by simpa [declare] using ha
  | node :: rest, h => by
    rw [List.forall_mem_cons] at h
    unfold declare
    split
    · exact List.forall_mem_cons.2 ⟨h.1.merge ha, h.2⟩
    · exact List.forall_mem_cons.2 ⟨h.1, built_declare ha h.2⟩

/-- The attributes of all nodes are built. -/
def Built (P : Attribute → Prop) (map : NodeMap) : Prop := ∀ node ∈ map.toList, node.attributes.Built P

theorem Built.add {map : NodeMap} (h : map.Built P) (name : String) {attrs : Attributes} (ha : attrs.Built P) :
    (map.add name attrs).Built P := by
  unfold NodeMap.Built
  rw [toList_add]
  exact built_declare ha h

theorem Built.addAll {map : NodeMap} (h : map.Built P) {new : List Node}
    (hn : ∀ node ∈ new, node.attributes.Built P) : (map.addAll new).Built P := by
  unfold NodeMap.addAll
  refine List.foldlRecOn _ _ h fun map hm node he => ?_
  exact hm.add node.name (hn node he)

theorem Built.nodup_attrsOf {map : NodeMap} (h : map.Built P) (name : String) : (map.attrsOf name).names.Nodup := by
  by_cases hm : name ∈ map.names
  · obtain ⟨node, hn, rfl⟩ := List.mem_map.1 hm
    unfold attrsOf
    rw [get?_of_mem hn]
    exact (h node hn).nodup
  · rw [attrsOf_of_not_mem hm]
    exact Attributes.nodup_names_empty

end NodeMap

/-! ## Trees of groups -/

namespace Subgraph

/-- The attributes of a group and of its nodes are built. -/
def LabelBuilt (P : Attribute → Prop) (label : Label) : Prop := label.2.1.Built P ∧ label.2.2.Built P

/-- The attributes of all groups in a tree are built, and those of their nodes. -/
def Built (P : Attribute → Prop) (sub : Subgraph) : Prop := ∀ label ∈ sub.labels, LabelBuilt P label

theorem labelBuilt_merge : KeptByMerging (LabelBuilt P) :=
  fun ha hb => ⟨ha.1.merge hb.1, ha.2.addAll hb.2⟩

theorem built_iff {sub : Subgraph} :
    sub.Built P ↔ sub.attributes.Built P ∧ sub.nodes.Built P ∧ ∀ child ∈ sub.children, child.Built P := by
  rw [← and_assoc]
  exact all_iff

theorem Built.of_mem {sub group : Subgraph} (h : sub.Built P) (hg : group ∈ sub.hierarchy) : group.Built P :=
  All.of_mem h hg

theorem built_new (name : String) {attrs : Attributes} (h : attrs.Built P) : (new name attrs).Built P :=
  built_iff.2 ⟨h, nofun, nofun⟩

theorem Built.allNodes {sub : Subgraph} (h : sub.Built P) : ∀ node ∈ sub.allNodes, node.attributes.Built P := by
  intro node hn
  obtain ⟨group, hg, hm⟩ := List.mem_flatMap.1 hn
  exact (built_iff.1 (h.of_mem hg)).2.1 node hm

/-- The tree with other attributes and nodes on top. -/
theorem Built.put {sub : Subgraph} (h : sub.Built P) {attrs : Attributes} (ha : attrs.Built P) {nodes : NodeMap}
    (hn : nodes.Built P) : Subgraph.Built P { sub with attributes := attrs, nodes } :=
  built_iff.2 ⟨ha, hn, (built_iff.1 h).2.2⟩

theorem Built.addNode {sub : Subgraph} (h : sub.Built P) (name : String) {attrs : Attributes} (ha : attrs.Built P) :
    (sub.addNode name attrs).Built P :=
  h.put (built_iff.1 h).1 ((built_iff.1 h).2.1.add name ha)

theorem Built.ensureNode {sub : Subgraph} (h : sub.Built P) (name : String) {attrs : Attributes} (ha : attrs.Built P) :
    (sub.ensureNode attrs name).Built P := by
  by_cases hm : name ∈ sub.nodes.names
  · rwa [ensureNode_of_mem hm]
  · rw [ensureNode_of_not_mem hm]
    exact h.addNode name ha

theorem Built.receive {body sub : Subgraph} (h : body.Built P) (hs : sub.Built P) : (Builder.receive sub body).Built P :=
  h.put (built_iff.1 h).1 ((built_iff.1 h).2.1.addAll hs.allNodes)

theorem Built.modify? {sub result : Subgraph} (h : sub.Built P) {name : String} {f : Subgraph → Subgraph}
    (hf : ∀ group, group.Built P → (f group).Built P) (hm : sub.modify? name f = some result) : result.Built P :=
  All.modify? h hf hm

theorem Built.absorb {other sub : Subgraph} (h : sub.Built P) (ho : other.Built P) : (sub.absorb other).Built P :=
  All.absorb labelBuilt_merge h ho

theorem Built.attach {sub newcomer : Subgraph} (h : sub.Built P) (hn : newcomer.Built P) : (sub.attach newcomer).Built P :=
  All.attachUnder labelBuilt_merge (h.receive hn) hn (attachUnder_none sub newcomer)

end Subgraph

/-! ## Defaults -/

/-- The defaults of all open scopes are as `P` says. -/
def ScopedMap.Holds (P : Attribute → Prop) (map : ScopedMap String AttrValue) : Prop :=
  ∀ scope ∈ map.scopes, ∀ pair ∈ scope, P ⟨pair.1, pair.2⟩

theorem holds_upsert {name : String} {value : AttrValue} (h : P ⟨name, value⟩) :
    ∀ {pairs : List (String × AttrValue)}, (∀ pair ∈ pairs, P ⟨pair.1, pair.2⟩) →
      ∀ pair ∈ upsert name value pairs, P ⟨pair.1, pair.2⟩
  | [], _ => by simpa [upsert] using h
  | pair :: rest, hp => by
    rw [List.forall_mem_cons] at hp
    unfold upsert
    split
    · exact List.forall_mem_cons.2 ⟨h, hp.2⟩
    · exact List.forall_mem_cons.2 ⟨hp.1, holds_upsert h hp.2⟩

namespace ScopedMap

theorem Holds.push {map : ScopedMap String AttrValue} (h : map.Holds P) : map.push.Holds P :=
  List.forall_mem_cons.2 ⟨nofun, h⟩

theorem Holds.pop {map : ScopedMap String AttrValue} (h : map.Holds P) : map.pop.Holds P :=
  fun scope hs => h scope (List.mem_of_mem_tail hs)

theorem Holds.insert {map : ScopedMap String AttrValue} (h : map.Holds P) {name : String} {value : AttrValue}
    (ha : P ⟨name, value⟩) : (map.insert name value).Holds P := by
  unfold ScopedMap.insert
  split
  · exact h
  · rename_i scope outer hs
    unfold Holds at h
    rw [hs, List.forall_mem_cons] at h
    exact List.forall_mem_cons.2 ⟨holds_upsert ha h.1, h.2⟩

theorem Holds.flatten {map : ScopedMap String AttrValue} (h : map.Holds P) :
    ∀ pair ∈ map.flatten, P ⟨pair.1, pair.2⟩ := by
  have hall : ∀ pair ∈ map.scopes.reverse.flatten, P ⟨pair.1, pair.2⟩ := by
    intro pair hp
    obtain ⟨scope, hs, hm⟩ := List.mem_flatten.1 hp
    exact h scope (List.mem_reverse.1 hs) pair hm
  unfold ScopedMap.flatten
  refine List.foldlRecOn (motive := fun pairs : List (String × AttrValue) => ∀ pair ∈ pairs, P ⟨pair.1, pair.2⟩)
    _ _ (by simp) fun pairs hp pair hm => ?_
  exact holds_upsert (hall pair hm) hp

end ScopedMap

namespace Scopes

/-- The defaults of every category are as `P` says. -/
def Holds (P : Attribute → Prop) (scopes : Scopes) : Prop := ∀ category, (scopes.of category).Holds P

theorem Holds.push {scopes : Scopes} (h : scopes.Holds P) : scopes.push.Holds P
  | .graph => (h .graph).push
  | .node => (h .node).push
  | .edge => (h .edge).push

theorem Holds.pop {scopes : Scopes} (h : scopes.Holds P) : scopes.pop.Holds P
  | .graph => (h .graph).pop
  | .node => (h .node).pop
  | .edge => (h .edge).pop

theorem of_merge (scopes : Scopes) (category : Category) (attrs : Attributes) (other : Category) :
    (scopes.merge category attrs).of other =
      if other = category then attrs.entries.foldl (fun map attr => map.insert attr.name attr.value) (scopes.of category)
      else scopes.of other := by
  cases category <;> cases other <;> rfl

theorem Holds.merge {scopes : Scopes} (h : scopes.Holds P) (category : Category) {attrs : Attributes}
    (ha : attrs.Built P) : (scopes.merge category attrs).Holds P := by
  intro other
  rw [of_merge]
  split
  · refine List.foldlRecOn _ _ (h category) fun map hm attr he => ?_
    exact hm.insert (ha.entries attr he)
  · exact h other

theorem nodup_names_inherited (scopes : Scopes) (category : Category) : (scopes.inherited category).names.Nodup :=
  Attributes.nodup_names_foldl (fun _ _ hn => Attributes.nodup_names_insert hn _) Attributes.nodup_names_empty _

theorem Holds.inherited {scopes : Scopes} (h : scopes.Holds P) (category : Category) :
    (scopes.inherited category).Built P := by
  unfold Scopes.inherited
  refine List.foldlRecOn _ _ .empty fun attrs ha pair hm => ?_
  exact ha.insert ((h category).flatten pair hm)

end Scopes

/-! ## Builders -/

namespace Graph

theorem built_insertStrict {directed : Bool} {edge : Edge} (h : edge.attributes.Built P) : ∀ {edges : List Edge},
    (∀ old ∈ edges, old.attributes.Built P) →
      ∀ old ∈ insertStrict directed edge edges, old.attributes.Built P
  | [], _ => by simpa [insertStrict] using h
  | first :: rest, he => by
    rw [List.forall_mem_cons] at he
    unfold insertStrict
    split
    · exact List.forall_mem_cons.2 ⟨he.1.merge h, he.2⟩
    · exact List.forall_mem_cons.2 ⟨he.1, built_insertStrict h he.2⟩

/-- The attributes of all groups, nodes and edges of a graph are built. -/
structure Built (P : Attribute → Prop) (graph : Graph) : Prop where
  body : graph.body.Built P
  edges : ∀ edge ∈ graph.edges, edge.attributes.Built P

theorem Built.ensureNode {graph : Graph} (h : graph.Built P) (name : String) : (graph.ensureNode name).Built P := by
  unfold Graph.ensureNode
  split
  · exact h
  · exact ⟨h.body.addNode name .empty, h.edges⟩

theorem Built.addEdge {graph : Graph} (h : graph.Built P) {edge : Edge} (he : edge.attributes.Built P) :
    (graph.addEdge edge).Built P := by
  have hnodes := (h.ensureNode edge.source.node).ensureNode edge.destination.node
  unfold Graph.addEdge
  dsimp only
  split
  · exact ⟨hnodes.body, built_insertStrict he hnodes.edges⟩
  · exact ⟨hnodes.body, List.forall_mem_append.2 ⟨hnodes.edges, List.forall_mem_singleton.2 he⟩⟩

end Graph

namespace Builder
open Subgraph

/-- All attributes that a builder holds are built. -/
structure Built (P : Attribute → Prop) (builder : Builder) : Prop where
  graph : builder.graph.Built P
  bodies : ∀ body ∈ builder.bodies, body.Built P
  scopes : builder.scopes.Holds P

theorem Built.modifyCurrent {builder : Builder} (h : builder.Built P) {f : Subgraph → Subgraph}
    (hf : ∀ sub, sub.Built P → (f sub).Built P) : (builder.modifyCurrent f).Built P := by
  have hb := h.bodies
  unfold Builder.modifyCurrent
  split
  · exact ⟨⟨hf _ h.graph.body, h.graph.edges⟩, h.bodies, h.scopes⟩
  · rename_i body outer hcons
    rw [hcons, List.forall_mem_cons] at hb
    exact ⟨h.graph, List.forall_mem_cons.2 ⟨hf body hb.1, hb.2⟩, h.scopes⟩

theorem Built.setDefaults {builder : Builder} (h : builder.Built P) (category : Category) {attrs : Attributes}
    (ha : attrs.Built P) : (builder.setDefaults category attrs).Built P := by
  have hnoted : Builder.Built P { builder with scopes := builder.scopes.merge category attrs } :=
    ⟨h.graph, h.bodies, h.scopes.merge category ha⟩
  cases category with
  | graph =>
    exact hnoted.modifyCurrent fun sub hs => hs.put ((built_iff.1 hs).1.merge ha) (built_iff.1 hs).2.1
  | node => exact hnoted
  | edge => exact hnoted

theorem Built.touchNode {builder : Builder} (h : builder.Built P) (name : String) : (builder.touchNode name).Built P := by
  rw [touchNode_eq]
  refine ⟨⟨h.graph.body.ensureNode name (h.scopes.inherited .node), h.graph.edges⟩, ?_, h.scopes⟩
  have hb := h.bodies
  show ∀ body ∈ builder.bodies.modifyHead (ensureNode ∅ name), body.Built P
  cases hbodies : builder.bodies with
  | nil => exact fun _ hm => absurd hm List.not_mem_nil
  | cons body outer =>
    rw [hbodies, List.forall_mem_cons] at hb
    exact List.forall_mem_cons.2 ⟨hb.1.ensureNode name .empty, hb.2⟩

theorem Built.addEdge {builder : Builder} (h : builder.Built P) {attrs : Attributes} (ha : attrs.Built P)
    (source destination : Endpoint) : (builder.addEdge attrs source destination).Built P := by
  have htouched := (h.touchNode source.node).touchNode destination.node
  unfold Builder.addEdge
  generalize (builder.touchNode source.node).touchNode destination.node = touched at htouched ⊢
  exact ⟨htouched.graph.addEdge ha, htouched.bodies, htouched.scopes⟩

theorem Built.connect {builder : Builder} (h : builder.Built P) (chain : List Operand) {attrs : Attributes}
    (ha : attrs.Built P) : (builder.connect chain attrs).Built P := by
  have hmerged := (h.scopes.inherited .edge).merge ha
  unfold Builder.connect
  refine List.foldlRecOn _ _ h fun next hn pair _ => ?_
  exact hn.addEdge hmerged pair.1 pair.2

theorem built_receive {bodies : List Subgraph} (h : ∀ body ∈ bodies, body.Built P) {sub : Subgraph}
    (hs : sub.Built P) : ∀ body ∈ bodies.map (receive sub), body.Built P := by
  intro body hb
  obtain ⟨old, ho, rfl⟩ := List.mem_map.1 hb
  exact (h old ho).receive hs

theorem AbsorbedBy.built {sub body result : Subgraph} (h : AbsorbedBy sub body result) (hs : sub.Built P)
    (hb : body.Built P) : result.Built P := by
  cases h with
  | itself _ hr => exact hr ▸ hb.absorb hs
  | deeper hm => exact hb.modify? (fun group hg => hg.absorb hs) hm

theorem Built.attached {builder result : Builder} (h : builder.Built P) {sub : Subgraph} (hs : sub.Built P)
    (ha : Attached builder sub result) : result.Built P := by
  cases ha with
  | root hb => exact ⟨⟨h.graph.body.attach hs, h.graph.edges⟩, h.bodies, h.scopes⟩
  | finished ho hm =>
    have hbody := h.graph.body.modify? (fun group hg => hg.absorb hs) hm
    exact ⟨⟨hbody, h.graph.edges⟩, built_receive h.bodies hs, h.scopes⟩
  | reopened hn hb ha =>
    have hbodies := built_receive h.bodies hs
    rw [hb, List.forall_mem_append, List.forall_mem_cons] at hbodies
    refine ⟨h.graph, ?_, h.scopes⟩
    exact List.forall_mem_append.2 ⟨hbodies.1, List.forall_mem_cons.2 ⟨ha.built hs hbodies.2.1, hbodies.2.2⟩⟩
  | current hb hk =>
    have hbodies := h.bodies
    rw [hb, List.forall_mem_cons] at hbodies
    exact ⟨h.graph, List.forall_mem_cons.2 ⟨hbodies.1.attach hs, hbodies.2⟩, h.scopes⟩

theorem built_start (name : String) (kind : GraphKind) : (Builder.new name kind).enterScope.Built P where
  graph := ⟨built_new name .empty, fun edge he => absurd he List.not_mem_nil⟩
  bodies body hb := absurd hb List.not_mem_nil
  scopes := Scopes.Holds.push fun category => by cases category <;> exact nofun

/-- Every call keeps the attributes built. -/
theorem Built.step {a b : Builder} (hs : Step (Attributes.Built P) a b) (h : a.Built P) : b.Built P := by
  cases hs with
  | assignment ha =>
    exact h.modifyCurrent fun sub hsub =>
      hsub.put ((built_iff.1 hsub).1.insert (ha.entries _ (List.mem_singleton_self _))) (built_iff.1 hsub).2.1
  | defaults category ha => exact h.setDefaults category ha
  | node name ha => exact h.modifyCurrent fun sub hsub => hsub.addNode name ((h.scopes.inherited .node).merge ha)
  | chain chain ha => exact h.connect chain ha
  | opening name =>
    exact ⟨h.graph, List.forall_mem_cons.2 ⟨built_new name (h.scopes.inherited .graph), h.bodies⟩, h.scopes.push⟩
  | closing =>
    rcases closeSubgraph_cases a with ⟨_, he⟩ | ⟨sub, outer, hb, he⟩
    · rw [he]
      exact ⟨h.graph, h.bodies, h.scopes.pop⟩
    · have hbodies := h.bodies
      rw [hb, List.forall_mem_cons] at hbodies
      have hleft : Builder.Built P { a.leaveScope with bodies := outer } := ⟨h.graph, hbodies.2, h.scopes.pop⟩
      rw [he]
      exact hleft.attached hbodies.1 (attach_cases ..)
  | reference name =>
    have hnew := built_new name (h.scopes.inherited .graph)
    unfold referToSubgraph
    split
    · exact h
    · exact h.attached hnew (attach_cases ..)

end Builder

end

/-- From collections in which no name stands twice, others are never made. -/
theorem Builder.Built.steps {a b : Builder} (h : a.Built fun _ => True)
    (hs : Builder.Steps (fun attrs => attrs.names.Nodup) a b) : b.Built fun _ => True := by
  have hbuilt := hs.mono (Q := Attributes.Built fun _ => True) fun attrs ha => ⟨ha, fun _ _ => trivial⟩
  exact hbuilt.keep Builder.Built.step h

end DotLang
