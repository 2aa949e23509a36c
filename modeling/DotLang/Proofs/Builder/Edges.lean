import DotLang.Proofs.Builder.Distinct

/-!
# Edges join nodes of the root

Only edge statements add edges, and each sees to it first that its nodes are in the root; nodes of the root
are never lost. In a strict graph an edge that joins the nodes of another is merged into it, so no two edges
join the same pair.
-/

namespace DotLang

/-- Two edges between the same nodes, in either orientation if the graph is undirected. -/
def Edge.SamePair (directed : Bool) (a b : Edge) : Prop :=
  a.source.node = b.source.node ∧ a.destination.node = b.destination.node ∨
    directed = false ∧ a.source.node = b.destination.node ∧ a.destination.node = b.source.node

theorem Edge.connects_iff {directed : Bool} {a b : Edge} :
    a.connects b.source.node b.destination.node directed = true ↔ a.SamePair directed b := by
  simp only [connects, leads, SamePair, Bool.or_eq_true, Bool.and_eq_true, beq_iff_eq, Bool.not_eq_true']

namespace Graph

/-- The endpoints of edges, and in a strict graph no two edges between the same nodes. -/
structure EdgesFit (graph : Graph) : Prop where
  ends : ∀ edge ∈ graph.edges, edge.source.node ∈ graph.nodes.names ∧ edge.destination.node ∈ graph.nodes.names
  single : graph.kind.strict = true → graph.edges.Pairwise fun a b => ¬ a.SamePair graph.kind.directed b

/-- Strict insertion adds no endpoints but those of the edge. -/
theorem mem_insertStrict {directed : Bool} {edge found : Edge} : ∀ {edges : List Edge},
    found ∈ insertStrict directed edge edges →
      ∃ old ∈ edge :: edges, found.source = old.source ∧ found.destination = old.destination
  | [], h => ⟨found, h, rfl, rfl⟩
  | first :: rest, h => by
    unfold insertStrict at h
    split at h
    · rcases List.mem_cons.1 h with rfl | h
      · exact ⟨first, by simp, rfl, rfl⟩
      · exact ⟨found, by simp [h], rfl, rfl⟩
    · rcases List.mem_cons.1 h with rfl | h
      · exact ⟨found, by simp, rfl, rfl⟩
      · obtain ⟨old, ho, he⟩ := mem_insertStrict h
        refine ⟨old, ?_, he⟩
        rcases List.mem_cons.1 ho with rfl | ho <;> simp [*]

theorem pairwise_insertStrict {directed : Bool} {edge : Edge} : ∀ {edges : List Edge},
    edges.Pairwise (fun a b => ¬ a.SamePair directed b) →
      (insertStrict directed edge edges).Pairwise fun a b => ¬ a.SamePair directed b
  | [], _ => List.pairwise_singleton ..
  | first :: rest, h => by
    rw [List.pairwise_cons] at h
    unfold insertStrict
    split
    · exact List.pairwise_cons.2 ⟨h.1, h.2⟩
    · rename_i hc
      rw [Edge.connects_iff] at hc
      refine List.pairwise_cons.2 ⟨fun found hf => ?_, pairwise_insertStrict h.2⟩
      obtain ⟨old, ho, hs, hd⟩ := mem_insertStrict hf
      have hold : ¬ first.SamePair directed old := by
        rcases List.mem_cons.1 ho with rfl | ho
        · exact hc
        · exact h.1 old ho
      unfold Edge.SamePair at hold ⊢
      rwa [hs, hd]

theorem EdgesFit.addEdge {graph : Graph} (h : EdgesFit graph) {edge : Edge}
    (hs : edge.source.node ∈ graph.nodes.names) (hd : edge.destination.node ∈ graph.nodes.names) :
    EdgesFit (graph.addEdge edge) := by
  rw [Builder.addEdge_eq hs hd]
  have hends : ∀ old ∈ edge :: graph.edges,
      old.source.node ∈ graph.nodes.names ∧ old.destination.node ∈ graph.nodes.names := by
    intro old ho
    rcases List.mem_cons.1 ho with rfl | ho
    · exact ⟨hs, hd⟩
    · exact h.ends old ho
  cases hk : graph.kind.strict with
  | true =>
    refine ⟨fun found hf => ?_, fun _ => pairwise_insertStrict (h.single hk)⟩
    obtain ⟨old, ho, e₁, e₂⟩ := mem_insertStrict hf
    rw [e₁, e₂]
    exact hends old ho
  | false =>
    refine ⟨fun found hf => hends found ?_, fun hstrict => ?_⟩
    · rcases List.mem_append.1 hf with hf | hf
      · exact List.mem_cons_of_mem _ hf
      · rw [List.mem_singleton.1 hf]
        exact List.mem_cons_self ..
    · rw [show graph.kind.strict = true from hstrict] at hk
      cases hk

/-- More nodes in the root do not matter to the edges. -/
theorem EdgesFit.mono {a b : Graph} (h : EdgesFit a) (hk : b.kind = a.kind) (he : b.edges = a.edges)
    (hn : ∀ name ∈ a.nodes.names, name ∈ b.nodes.names) : EdgesFit b := by
  constructor
  · intro edge hedge
    rw [he] at hedge
    exact ⟨hn _ (h.ends edge hedge).1, hn _ (h.ends edge hedge).2⟩
  · rw [hk, he]
    exact h.single

end Graph

namespace Builder

/-! ## What leaves the edges alone -/

theorem edges_modifyCurrent (builder : Builder) (f : Subgraph → Subgraph) :
    (builder.modifyCurrent f).graph.edges = builder.graph.edges := by
  unfold modifyCurrent
  split <;> rfl

theorem edges_setDefaults (builder : Builder) (category : Category) (attrs : Attributes) :
    (builder.setDefaults category attrs).graph.edges = builder.graph.edges := by
  cases category with
  | graph => exact edges_modifyCurrent ..
  | node => rfl
  | edge => rfl

theorem edges_touchNode (builder : Builder) (name : String) :
    (builder.touchNode name).graph.edges = builder.graph.edges := by
  rw [touchNode_eq]

theorem edgesFit_attached {builder result : Builder} {sub : Subgraph} (hd : Distinct (builder.push sub))
    (h : builder.graph.EdgesFit) (ha : Attached builder sub result) : result.graph.EdgesFit := by
  cases ha with
  | root hb =>
    refine h.mono rfl rfl fun name hn => ?_
    show name ∈ (builder.graph.body.attach sub).nodes.names
    rw [show (builder.graph.body.attach sub).nodes = builder.graph.body.nodes.addAll sub.allNodes from
      congrArg (·.2.2) (Subgraph.attach_of_fresh hd.fresh_root).1, NodeMap.mem_names_addAll]
    exact Or.inl hn
  | @finished body ho hm =>
    refine h.mono rfl rfl fun name hn => ?_
    show name ∈ body.nodes.names
    rwa [show body.nodes = builder.graph.body.nodes from congrArg (·.2.2) (Subgraph.modify?_eq_some hm).2.1]
  | reopened hn hb ha => exact ⟨h.ends, h.single⟩
  | current hb hk => exact ⟨h.ends, h.single⟩

/-! ## Edge statements -/

theorem edgesFit_addEdge {builder : Builder} (h : builder.graph.EdgesFit) (attrs : Attributes)
    (source destination : Endpoint) : (builder.addEdge attrs source destination).graph.EdgesFit := by
  obtain ⟨hs, hd⟩ := mem_names_touched builder source.node destination.node
  have hg := (grows_touchNode builder source.node).trans (grows_touchNode _ destination.node)
  have ht : ((builder.touchNode source.node).touchNode destination.node).graph.EdgesFit :=
    h.mono hg.kind (by rw [edges_touchNode, edges_touchNode]) hg.root.nodes
  unfold addEdge
  generalize (builder.touchNode source.node).touchNode destination.node = touched at hs hd ht ⊢
  exact ht.addEdge hs hd

theorem edgesFit_connect {builder : Builder} (h : builder.graph.EdgesFit) (chain : List Operand)
    (attrs : Attributes) : (builder.connect chain attrs).graph.EdgesFit := by
  unfold connect
  refine List.foldlRecOn (motive := fun next : Builder => next.graph.EdgesFit) _ _ h fun next hn pair _ => ?_
  exact edgesFit_addEdge hn ..

/-- Every call keeps the edges between nodes of the root, and single in a strict graph. -/
theorem edgesFit_step {P : Attributes → Prop} {a b : Builder} (hs : Step P a b) (hd : Distinct a)
    (h : a.graph.EdgesFit) : b.graph.EdgesFit := by
  cases hs with
  | assignment _ =>
    have hg := grows_assign a
    exact h.mono (hg _).kind (edges_modifyCurrent ..) (hg _).root.nodes
  | defaults category _ =>
    have hg := grows_setDefaults a category
    exact h.mono (hg _).kind (edges_setDefaults ..) (hg _).root.nodes
  | node name _ =>
    have hg := grows_declareNode a name
    exact h.mono (hg _).kind (edges_modifyCurrent ..) (hg _).root.nodes
  | chain chain _ => exact edgesFit_connect h ..
  | opening name => exact ⟨h.ends, h.single⟩
  | closing =>
    rcases closeSubgraph_cases a with ⟨_, he⟩ | ⟨sub, outer, hb, he⟩
    · rw [he]
      exact ⟨h.ends, h.single⟩
    · rw [he]
      exact edgesFit_attached (hd.reopen hb) ⟨h.ends, h.single⟩ (attach_cases ..)
  | reference name =>
    rcases referToSubgraph_cases a name with he | ⟨attrs, he⟩
    · rw [he]; exact h
    · rw [he]
      exact edgesFit_attached (hd.push name attrs) h (attach_cases ..)

end Builder

end DotLang
