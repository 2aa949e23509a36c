import DotLang.Graph.Query
import DotLang.Proofs.Occurrences

/-!
# Which nodes are joined

All questions about edges come down to one: whether some edge connects two nodes. The edge that is looked up,
listed first or taken out is the first such edge, and the neighbors on each side are the nodes for which there
is one. Without direction no question tells its two nodes apart.
-/

namespace DotLang

/-! ## One edge -/

namespace Edge

theorem connects_directed {edge : Edge} {a b : String} :
    edge.connects a b true = true ↔ edge.source.node = a ∧ edge.destination.node = b := by
  simp [connects, leads]

theorem connects_undirected {edge : Edge} {a b : String} :
    edge.connects a b false = true ↔
      edge.source.node = a ∧ edge.destination.node = b ∨ edge.source.node = b ∧ edge.destination.node = a := by
  simp [connects, leads]

theorem connects_swap (edge : Edge) (a b : String) : edge.connects a b false = edge.connects b a false := by
  rw [Bool.eq_iff_iff, connects_undirected, connects_undirected, or_comm]

theorem connects_either {edge : Edge} {a b : String} :
    edge.connects a b false = true ↔ edge.connects a b true = true ∨ edge.connects b a true = true := by
  rw [connects_undirected, connects_directed, connects_directed]

end Edge

namespace Graph

theorem leadsBetween_some (a b : String) (edge : Edge) : leadsBetween (some a) (some b) edge = edge.leads a b := by
  unfold leadsBetween Edge.leads
  rw [Option.all_some, Option.all_some, Bool.beq_comm, Bool.beq_comm (a := b)]

/-- An edge has a node across if it connects the two in either direction; a loop has its node across itself. -/
theorem across_eq_some {node other : String} {edge : Edge} :
    across node edge = some other ↔ edge.connects node other false = true := by
  rw [Edge.connects_undirected]
  unfold across
  by_cases hd : edge.destination.node = node
  · rw [if_pos hd, Option.some.injEq]
    constructor
    · exact fun hs => Or.inr ⟨hs, hd⟩
    · rintro (⟨hs, ho⟩ | ⟨hs, -⟩)
      · exact (hs.trans hd.symm).trans ho
      · exact hs
  · rw [if_neg hd]
    by_cases hs : edge.source.node = node
    · simp [hs, hd]
    · simp [hs, hd]

/-! ## All edges -/

section
variable (graph : Graph)

theorem edgesBetween_some (a b : String) :
    graph.edgesBetween (some a) (some b) = graph.edges.filter fun edge => edge.connects a b graph.kind.directed := by
  unfold edgesBetween Edge.connects
  simp only [leadsBetween_some]

theorem findEdge?_eq_head? (a b : String) :
    graph.findEdge? a b = (graph.edgesBetween (some a) (some b)).head? := by
  rw [edgesBetween_some, List.head?_filter]
  rfl

variable {graph} {a b : String}

theorem hasEdge_iff :
    graph.hasEdge a b = true ↔ ∃ edge ∈ graph.edges, edge.connects a b graph.kind.directed = true := by
  rw [hasEdge, findEdge?, List.find?_isSome]

theorem mem_neighbors :
    b ∈ graph.neighbors a ↔ ∃ edge ∈ graph.edges, edge.connects a b false = true := by
  simp only [neighbors, List.mem_eraseDups, List.mem_filterMap, across_eq_some]

theorem mem_successors : b ∈ graph.successors a ↔ graph.hasEdge a b = true := by
  rw [hasEdge_iff, successors]
  cases graph.kind.directed with
  | true => simp [Edge.connects_directed, and_assoc]
  | false => simp [mem_neighbors]

theorem mem_predecessors : a ∈ graph.predecessors b ↔ graph.hasEdge a b = true := by
  rw [hasEdge_iff, predecessors]
  cases graph.kind.directed with
  | true =>
    simp only [if_true, List.mem_eraseDups, List.mem_map, List.mem_filter, beq_iff_eq, Edge.connects_directed]
    exact exists_congr fun edge => by tauto
  | false => simp [mem_neighbors, Edge.connects_swap _ b a]

theorem mem_neighbors_iff : b ∈ graph.neighbors a ↔ b ∈ graph.predecessors a ∨ b ∈ graph.successors a := by
  rw [mem_neighbors, mem_predecessors, mem_successors, hasEdge_iff, hasEdge_iff, ← exists_or]
  refine exists_congr fun edge => ?_
  rw [← and_or_left]
  refine and_congr_right fun _ => ?_
  cases graph.kind.directed with
  | true => rw [Edge.connects_either, or_comm]
  | false => rw [Edge.connects_swap edge b a, or_self]

theorem nodup_neighbors (graph : Graph) (node : String) : (graph.neighbors node).Nodup := nodup_eraseDups _

theorem nodup_predecessors (graph : Graph) (node : String) : (graph.predecessors node).Nodup := by
  unfold predecessors
  split
  · exact nodup_eraseDups _
  · exact nodup_neighbors graph node

theorem nodup_successors (graph : Graph) (node : String) : (graph.successors node).Nodup := by
  unfold successors
  split
  · exact nodup_eraseDups _
  · exact nodup_neighbors graph node

end

/-! ## Taking an edge out -/

/-- Takes the first edge from `a` to `b` out of the graph: gives the edge, and the graph that is left. -/
def takeEdge (graph : Graph) (a b : String) : Option Edge × Graph :=
  let (found, edges) := takeFirst (fun edge => edge.connects a b graph.kind.directed) graph.edges
  (found, { graph with edges })

theorem takeEdge_eq (graph : Graph) (a b : String) :
    graph.takeEdge a b = (graph.findEdge? a b, graph.eraseEdge a b) := by
  unfold takeEdge
  rw [takeFirst_eq]
  rfl

/-- A graph, and what is left of it without one of its edges: the first one from `a` to `b`. -/
structure Loses (graph : Graph) (a b : String) (edge : Edge) (left : Graph) : Prop where
  kind : left.kind = graph.kind
  body : left.body = graph.body
  edges : ∃ before after, graph.edges = before ++ edge :: after ∧ left.edges = before ++ after ∧
    (∀ other ∈ before, other.connects a b graph.kind.directed = false) ∧
    edge.connects a b graph.kind.directed = true

theorem loses_eraseEdge {graph : Graph} {a b : String} {edge : Edge} (h : graph.findEdge? a b = some edge) :
    Loses graph a b edge (graph.eraseEdge a b) := by
  refine ⟨rfl, rfl, ?_⟩
  obtain ⟨hc, before, after, he, hb⟩ := List.find?_eq_some_iff_append.1 h
  have hb : ∀ other ∈ before, other.connects a b graph.kind.directed = false := fun other ho => by
    simpa using hb other ho
  refine ⟨before, after, he, ?_, hb, hc⟩
  show graph.edges.eraseP _ = before ++ after
  rw [he, List.eraseP_append_right _ fun other ho => Bool.eq_false_iff.1 (hb other ho)]
  simp [hc]

theorem eraseEdge_of_none {graph : Graph} {a b : String} (h : graph.findEdge? a b = none) :
    graph.eraseEdge a b = graph := by
  unfold eraseEdge
  rw [List.eraseP_of_forall_not (List.find?_eq_none.1 h)]

/-! ## Questions that agree -/

/-- The answers about two nodes, each in terms of another. -/
structure Consults (graph : Graph) (a b : String) : Prop where
  first : graph.findEdge? a b = (graph.edgesBetween (some a) (some b)).head?
  joined : graph.hasEdge a b = true ↔ graph.edgesBetween (some a) (some b) ≠ []
  taken : match graph.takeEdge a b with
    | (none, left) => graph.findEdge? a b = none ∧ left = graph
    | (some edge, left) => graph.findEdge? a b = some edge ∧ Loses graph a b edge left
  successor : b ∈ graph.successors a ↔ graph.hasEdge a b = true
  predecessor : a ∈ graph.predecessors b ↔ graph.hasEdge a b = true
  neighbor : b ∈ graph.neighbors a ↔ b ∈ graph.predecessors a ∨ b ∈ graph.successors a

theorem consults (graph : Graph) (a b : String) : Consults graph a b where
  first := findEdge?_eq_head? graph a b
  joined := by
    rw [hasEdge, findEdge?_eq_head?, List.isSome_head?]
  taken := by
    rw [takeEdge_eq]
    cases h : graph.findEdge? a b with
    | none => exact ⟨rfl, eraseEdge_of_none h⟩
    | some edge => exact ⟨rfl, loses_eraseEdge h⟩
  successor := mem_successors
  predecessor := mem_predecessors
  neighbor := mem_neighbors_iff

/-- The same answers for two nodes and for the two swapped. -/
structure Reversible (graph : Graph) : Prop where
  first : ∀ a b, graph.findEdge? a b = graph.findEdge? b a
  joined : ∀ a b, graph.hasEdge a b = graph.hasEdge b a
  taken : ∀ a b, graph.takeEdge a b = graph.takeEdge b a
  between : ∀ source destination, graph.edgesBetween source destination = graph.edgesBetween destination source

theorem reversible_of_undirected {graph : Graph} (h : graph.kind.directed = false) : graph.Reversible := by
  have hfirst (a b : String) : graph.findEdge? a b = graph.findEdge? b a := by
    unfold findEdge?
    simp only [h, Edge.connects_swap _ a b]
  refine ⟨hfirst, fun a b => ?_, fun a b => ?_, fun source destination => ?_⟩
  · rw [hasEdge, hasEdge, hfirst]
  · rw [takeEdge_eq, takeEdge_eq, hfirst]
    unfold eraseEdge
    simp only [h, Edge.connects_swap _ a b]
  · unfold edgesBetween
    simp only [h, Bool.not_false, Bool.true_and]
    exact List.filter_congr fun edge _ => Bool.or_comm ..

/-- Every question about edges is answered by the same edges, no neighbor is named twice, and in an undirected graph
the two nodes may be swapped. -/
theorem queries_agree (graph : Graph) :
    (∀ a b, Consults graph a b) ∧
      (∀ node, (graph.predecessors node).Nodup ∧ (graph.successors node).Nodup ∧ (graph.neighbors node).Nodup) ∧
      (graph.kind.directed = false → graph.Reversible) :=
  ⟨consults graph, fun node => ⟨nodup_predecessors graph node, nodup_successors graph node, nodup_neighbors graph node⟩,
    reversible_of_undirected⟩

/-- Two edges between the same nodes, one each way, and a loop: both nodes are named once, and the edge that came
first is found from both sides. -/
theorem queries_agree_loop :
    let there : Edge := ⟨{ node := "a", port := some "p" }, { node := "b" }, ∅⟩
    let loop : Edge := ⟨{ node := "a" }, { node := "a" }, ∅⟩
    let back : Edge := ⟨{ node := "b" }, { node := "a" }, ∅⟩
    let graph := [there, loop, back].foldl addEdge (new "" ⟨false, false⟩)
    graph.kind.directed = false ∧ graph.Reversible ∧ graph.findEdge? "b" "a" = some there ∧
      graph.neighbors "a" = ["b", "a"] :=
  ⟨rfl, (queries_agree ([_, _, _].foldl addEdge (new "" ⟨false, false⟩))).2.2 rfl, by decide⟩

end Graph

end DotLang
