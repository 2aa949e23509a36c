import DotLang.Proofs.Everywhere
import DotLang.Proofs.WellFormed

/-!
# Which nodes a builder holds

A node is held that is in the root or in an open body. A statement adds the nodes that it names and loses
none, and when a body ends, the nodes of its hierarchy are its own: they go on to be held by what is around.
-/

namespace DotLang.Builder
open Subgraph

/-- The names of the nodes that bodies have of their own. -/
def ownNames (bodies : List Subgraph) : List String := bodies.flatMap fun body => body.nodes.names

/-- The node is in the root, or in a body that is open. -/
def Holds (builder : Builder) (name : String) : Prop :=
  name ∈ builder.graph.nodes.names ∨ name ∈ ownNames builder.bodies

/-! ## What a chain joins -/

/-- The node stands at an end of a pair that the chain joins. -/
def Joins (chain : List Operand) (name : String) : Prop :=
  ∃ pair ∈ chainPairs chain, name = pair.1.node ∨ name = pair.2.node

instance (chain : List Operand) (name : String) : Decidable (Joins chain name) :=
  inferInstanceAs (Decidable (∃ pair ∈ chainPairs chain, _))

theorem mem_zip_tail {left right : Operand} : ∀ {chain : List Operand},
    (left, right) ∈ chain.zip chain.tail ↔ [left, right] <:+: chain
  | [] => by simp
  | [operand] => by
    refine ⟨fun h => absurd h List.not_mem_nil, fun h => ?_⟩
    have := h.length_le
    simp at this
  | first :: second :: rest => by
    have ih := @mem_zip_tail left right (second :: rest)
    rw [List.infix_cons_iff, ← ih, List.tail_cons, List.zip_cons_cons, List.mem_cons, List.cons_prefix_cons,
      List.cons_prefix_cons]
    simp

theorem mem_chainPairs {chain : List Operand} {source destination : Endpoint} :
    (source, destination) ∈ chainPairs chain ↔ ∃ left right, [left, right] <:+: chain ∧
      source ∈ left.endpoints ∧ destination ∈ right.endpoints := by
  unfold chainPairs
  simp only [List.mem_flatMap, List.mem_map, Prod.exists, Prod.mk.injEq]
  constructor
  · rintro ⟨left, right, hz, _, hs, _, hd, rfl, rfl⟩
    exact ⟨left, right, mem_zip_tail.1 hz, hs, hd⟩
  · rintro ⟨left, right, hi, hs, hd⟩
    exact ⟨left, right, mem_zip_tail.2 hi, source, hs, destination, hd, rfl, rfl⟩

/-- A chain joins the nodes of two neighbours in it if both have any. -/
theorem joins_iff {chain : List Operand} {name : String} :
    Joins chain name ↔ ∃ left right, [left, right] <:+: chain ∧ left.endpoints ≠ [] ∧ right.endpoints ≠ [] ∧
      name ∈ (left.endpoints ++ right.endpoints).map Endpoint.node := by
  unfold Joins
  simp only [Prod.exists, mem_chainPairs, List.map_append, List.mem_append, List.mem_map]
  constructor
  · rintro ⟨source, destination, ⟨left, right, hi, hs, hd⟩, hn⟩
    refine ⟨left, right, hi, List.ne_nil_of_mem hs, List.ne_nil_of_mem hd, ?_⟩
    rcases hn with rfl | rfl
    · exact Or.inl ⟨source, hs, rfl⟩
    · exact Or.inr ⟨destination, hd, rfl⟩
  · rintro ⟨left, right, hi, hl, hr, ⟨source, hs, rfl⟩ | ⟨destination, hd, rfl⟩⟩
    · obtain ⟨destination, hd⟩ := List.exists_mem_of_ne_nil _ hr
      exact ⟨source, destination, ⟨left, right, hi, hs, hd⟩, Or.inl rfl⟩
    · obtain ⟨source, hs⟩ := List.exists_mem_of_ne_nil _ hl
      exact ⟨source, destination, ⟨left, right, hi, hs, hd⟩, Or.inr rfl⟩

/-! ## Statements -/

section
variable {builder : Builder} {name : String}

theorem mem_ownNames_cons {body : Subgraph} {outer : List Subgraph} :
    name ∈ ownNames (body :: outer) ↔ name ∈ body.nodes.names ∨ name ∈ ownNames outer := by
  unfold ownNames
  rw [List.flatMap_cons, List.mem_append]

theorem holds_modifyCurrent {f : Subgraph → Subgraph} {more : Prop}
    (hf : ∀ sub, name ∈ (f sub).nodes.names ↔ name ∈ sub.nodes.names ∨ more) :
    (builder.modifyCurrent f).Holds name ↔ builder.Holds name ∨ more := by
  unfold Holds modifyCurrent
  split
  · rename_i hb
    rw [hb, show ownNames [] = [] from rfl, List.mem_nil_iff, or_false, or_false]
    exact hf builder.graph.body
  · rename_i body outer hb
    rw [hb, mem_ownNames_cons, mem_ownNames_cons, hf body]
    tauto

theorem holds_declareNode {other : String} {attrs : Attributes} :
    (builder.declareNode other attrs).Holds name ↔ builder.Holds name ∨ name = other :=
  holds_modifyCurrent fun _ => NodeMap.mem_names_add

theorem holds_modifyCurrent_of_nodes {f : Subgraph → Subgraph} (hf : ∀ sub, (f sub).nodes = sub.nodes) :
    (builder.modifyCurrent f).Holds name ↔ builder.Holds name := by
  have h : (builder.modifyCurrent f).Holds name ↔ builder.Holds name ∨ False :=
    holds_modifyCurrent fun sub => by rw [hf sub, or_false]
  rwa [or_false] at h

theorem holds_assign {attr : Attribute} : (builder.assign attr).Holds name ↔ builder.Holds name :=
  holds_modifyCurrent_of_nodes fun _ => rfl

theorem holds_setDefaults {category : Category} {attrs : Attributes} :
    (builder.setDefaults category attrs).Holds name ↔ builder.Holds name := by
  cases category with
  | graph =>
    let noted : Builder := { builder with scopes := builder.scopes.merge .graph attrs }
    have h : (noted.modifyCurrent fun body => { body with attributes := body.attributes.merge attrs }).Holds name ↔
        noted.Holds name := holds_modifyCurrent_of_nodes fun _ => rfl
    exact h
  | node => exact Iff.rfl
  | edge => exact Iff.rfl

theorem holds_touchNode {other : String} :
    (builder.touchNode other).Holds name ↔ builder.Holds name ∨ name = other := by
  rw [touchNode_eq]
  unfold Holds
  show name ∈ (builder.graph.nodes.ensure _ other).names ∨
    name ∈ ownNames (builder.bodies.modifyHead (ensureNode ∅ other)) ↔ _
  rw [NodeMap.mem_names_ensure]
  cases builder.bodies with
  | nil =>
    rw [List.modifyHead_nil]
    tauto
  | cons body outer =>
    -- The body gets no node that the root does not have.
    rw [List.modifyHead_cons, mem_ownNames_cons, mem_ownNames_cons]
    show _ ∨ name ∈ (body.nodes.ensure ∅ other).names ∨ _ ↔ _
    rw [NodeMap.mem_names_ensure]
    tauto

theorem holds_addEdge {attrs : Attributes} {source destination : Endpoint} :
    (builder.addEdge attrs source destination).Holds name ↔
      builder.Holds name ∨ name = source.node ∨ name = destination.node := by
  obtain ⟨edges, he⟩ := addEdge_touched builder attrs source destination
  rw [he, ← or_assoc, ← holds_touchNode, ← holds_touchNode]
  exact Iff.rfl

/-- What each edge makes true of its two nodes, a chain makes true of the nodes that it joins. -/
theorem connect_iff {Q : Builder → Prop} (hq : ∀ builder attrs (source destination : Endpoint),
    Q (builder.addEdge attrs source destination) ↔ Q builder ∨ name = source.node ∨ name = destination.node)
    {chain : List Operand} {attrs : Attributes} : Q (builder.connect chain attrs) ↔ Q builder ∨ Joins chain name := by
  have hfold (pairs : List (Endpoint × Endpoint)) (attrs : Attributes) (builder : Builder) :
      Q (pairs.foldl (fun builder pair => builder.addEdge attrs pair.1 pair.2) builder) ↔
        Q builder ∨ ∃ pair ∈ pairs, name = pair.1.node ∨ name = pair.2.node := by
    induction pairs generalizing builder with
    | nil => simp
    | cons pair pairs ih =>
      rw [List.foldl_cons, ih, hq]
      simp only [List.mem_cons, exists_eq_or_imp, or_assoc]
  exact hfold ..

theorem holds_connect {chain : List Operand} {attrs : Attributes} :
    (builder.connect chain attrs).Holds name ↔ builder.Holds name ∨ Joins chain name :=
  connect_iff (Q := fun builder => builder.Holds name) fun _ _ _ _ => holds_addEdge

theorem holds_openSubgraph {other : String} : (builder.openSubgraph other).Holds name ↔ builder.Holds name :=
  Iff.rfl

/-! ## Groups -/

theorem mem_ownNames_receive {sub : Subgraph} : ∀ {bodies : List Subgraph}, bodies ≠ [] →
    (name ∈ ownNames (bodies.map (receive sub)) ↔ name ∈ ownNames bodies ∨ name ∈ sub.memberNames)
  | [body], _ => by
    rw [List.map_cons, List.map_nil, mem_ownNames_cons, mem_ownNames_cons, mem_nodes_receive]
    tauto
  | body :: next :: outer, _ => by
    rw [List.map_cons, mem_ownNames_cons, mem_ownNames_cons, mem_nodes_receive,
      mem_ownNames_receive (List.cons_ne_nil next outer)]
    tauto

/-- A body that absorbs a group keeps its nodes, and gets none but the group's. -/
theorem AbsorbedBy.mem_nodes {sub body body' : Subgraph} (ha : AbsorbedBy sub body body')
    (hf : (body.groupNames ++ sub.groupNames).Nodup) :
    (name ∈ body.nodes.names → name ∈ body'.nodes.names) ∧
      (name ∈ body'.nodes.names → name ∈ body.nodes.names ∨ name ∈ sub.nodes.names) := by
  refine ⟨ha.nodes name, fun hn => ?_⟩
  cases ha with
  | itself _ hr =>
    rw [hr, nodes_absorb hf] at hn
    exact NodeMap.mem_names_addAll.1 hn
  | deeper hm =>
    rw [show body'.nodes = body.nodes from congrArg (·.2.2) (modify?_eq_some hm).2.1] at hn
    exact Or.inl hn

theorem mem_nodes_attach {tree sub : Subgraph} :
    name ∈ (tree.attach sub).nodes.names ↔ name ∈ tree.nodes.names ∨ name ∈ sub.memberNames := by
  rw [nodes_attach, NodeMap.mem_names_addAll, memberNames_eq]

/-- A group that is attached leaves its nodes with the builder, wherever it goes. -/
theorem holds_attached {result : Builder} {sub : Subgraph} (hd : Distinct (builder.push sub))
    (ha : Attached builder sub result) : result.Holds name ↔ builder.Holds name ∨ name ∈ sub.memberNames := by
  cases ha with
  | root hb =>
    unfold Holds
    show name ∈ (builder.graph.body.attach sub).nodes.names ∨ name ∈ ownNames builder.bodies ↔ _
    rw [mem_nodes_attach, hb, show ownNames [] = [] from rfl, List.mem_nil_iff, or_false, or_false]
    exact Iff.rfl
  | @finished body ho hm =>
    have hn : body.nodes = builder.graph.nodes := congrArg (·.2.2) (modify?_eq_some hm).2.1
    unfold Holds
    show name ∈ body.nodes.names ∨ name ∈ ownNames (builder.bodies.map (receive sub)) ↔ _
    rw [hn, mem_ownNames_receive ho, or_assoc]
  | @reopened inner outer body body' hn hb hab =>
    have ho : builder.bodies ≠ [] := by
      intro hnil
      rw [hnil] at hb
      simp at hb
    have hreceived : body ∈ builder.bodies.map (receive sub) := by
      rw [hb]
      simp
    have hf := hd.fresh_received hreceived
    obtain ⟨old, hold, rfl⟩ := List.mem_map.1 hreceived
    -- The nodes of the group are in all bodies before one of them absorbs it.
    have hall (hm : name ∈ sub.nodes.names) : name ∈ (receive sub old).nodes.names := by
      rw [mem_nodes_receive, memberNames_cons, List.mem_append]
      exact Or.inr (Or.inl hm)
    have hbody : name ∈ body'.nodes.names ↔ name ∈ (receive sub old).nodes.names := by
      refine ⟨fun hm => ?_, (hab.mem_nodes hf).1⟩
      rcases (hab.mem_nodes hf).2 hm with hm | hm
      · exact hm
      · exact hall hm
    unfold Holds
    rw [or_assoc, ← mem_ownNames_receive ho, hb]
    unfold ownNames
    rw [List.flatMap_append, List.flatMap_append, List.flatMap_cons, List.flatMap_cons, List.mem_append,
      List.mem_append, List.mem_append, List.mem_append, hbody]
  | @current body outer hb hk =>
    unfold Holds
    rw [hb, mem_ownNames_cons, mem_ownNames_cons, mem_nodes_attach]
    tauto

/-- Closing a body loses no node and adds none. -/
theorem holds_closeSubgraph (hs : Sound builder) : builder.closeSubgraph.2.Holds name ↔ builder.Holds name := by
  rcases closeSubgraph_cases builder with ⟨_, he⟩ | ⟨sub, outer, hb, he⟩
  · rw [he]
    exact Iff.rfl
  · have hmember : name ∈ sub.memberNames ↔ name ∈ sub.nodes.names := by
      refine ⟨hs.rooted.gathered sub (hb ▸ List.mem_cons_self ..) name, fun hm => ?_⟩
      rw [memberNames_cons]
      exact List.mem_append_left _ hm
    rw [he, holds_attached (hs.distinct.reopen hb) (attach_cases ..), hmember]
    unfold Holds
    rw [hb, mem_ownNames_cons]
    show (_ ∨ name ∈ ownNames outer) ∨ _ ↔ _
    tauto

/-- A reference to a group names no node. -/
theorem holds_referToSubgraph {other : String} (hs : Sound builder) :
    (builder.referToSubgraph other).2.Holds name ↔ builder.Holds name := by
  rcases referToSubgraph_cases builder other with he | ⟨attrs, he⟩
  · rw [he]
  · rw [he, holds_attached (hs.distinct.push other attrs) (attach_cases ..), memberNames_new, List.mem_nil_iff,
      or_false]

end

end DotLang.Builder
