import DotLang.Proofs.Editing
import DotLang.Proofs.Occurrences
import Mathlib.Data.Sym.Sym2

/-!
# The edges of a strict graph

Edges that are added to a strict graph one after the other are sorted by the pair of nodes they join. The pairs
stand in the order in which they first came; each has one edge, which is the first of its pair with the
attributes of the later ones merged in. What came in for other pairs does not matter to it.
-/

namespace DotLang

namespace Edge

/-- Two nodes that an edge may join: with an order if direction counts, without one otherwise. -/
inductive Pair
  | ordered (source destination : String)
  | unordered (nodes : Sym2 String)
deriving DecidableEq

def pair (directed : Bool) (edge : Edge) : Pair :=
  if directed then .ordered edge.source.node edge.destination.node
  else .unordered s(edge.source.node, edge.destination.node)

theorem connects_iff_pair {directed : Bool} {a b : Edge} :
    a.connects b.source.node b.destination.node directed = true ↔ a.pair directed = b.pair directed := by
  rw [connects_iff]
  cases directed with
  | true => simp [SamePair, pair]
  | false => simp [SamePair, pair]

@[simp] theorem pair_withAttributes (directed : Bool) (edge : Edge) (attributes : Attributes) :
    Edge.pair directed { edge with attributes } = edge.pair directed := rfl

/-- The first of some edges, with the attributes of the others merged into its own in turn. -/
def merged : List Edge → Option Edge
  | [] => none
  | first :: rest =>
    some { first with attributes := rest.foldl (fun attrs edge => attrs.merge edge.attributes) first.attributes }

end Edge

namespace Graph

/-! ## One edge -/

section
variable {directed : Bool} {edge : Edge}

theorem insertStrict_cons (first : Edge) (rest : List Edge) :
    insertStrict directed edge (first :: rest) =
      if first.pair directed = edge.pair directed then
        { first with attributes := first.attributes.merge edge.attributes } :: rest
      else first :: insertStrict directed edge rest := by
  rw [insertStrict]
  simp only [Edge.connects_iff_pair]

theorem pairs_insertStrict : ∀ edges : List Edge,
    (insertStrict directed edge edges).map (Edge.pair directed) =
      if edge.pair directed ∈ edges.map (Edge.pair directed) then edges.map (Edge.pair directed)
      else edges.map (Edge.pair directed) ++ [edge.pair directed]
  | [] => rfl
  | first :: rest => by
    rw [insertStrict_cons]
    by_cases h : first.pair directed = edge.pair directed
    · simp [h]
    · have ih := pairs_insertStrict rest
      by_cases hm : edge.pair directed ∈ rest.map (Edge.pair directed)
      · simp [h, ih, hm]
      · simp [h, Ne.symm h, ih, hm]

/-- Only the edges of its own pair matter to an insertion, and only they change. -/
theorem filter_insertStrict (pair : Edge.Pair) : ∀ edges : List Edge,
    (insertStrict directed edge edges).filter (fun found => found.pair directed = pair) =
      if edge.pair directed = pair then
        insertStrict directed edge (edges.filter fun found => found.pair directed = pair)
      else edges.filter fun found => found.pair directed = pair
  | [] => by
    by_cases hp : edge.pair directed = pair
    · simp [insertStrict, hp]
    · simp [insertStrict, hp]
  | first :: rest => by
    have ih := filter_insertStrict pair rest
    rw [insertStrict_cons, List.filter_cons]
    by_cases h : first.pair directed = edge.pair directed
    · by_cases hp : edge.pair directed = pair
      · simp [h, hp, insertStrict_cons]
      · simp [h, hp]
    · -- The insertion passes the first edge, which is of the pair asked for only if the new one is not.
      rw [if_neg h, List.filter_cons, ih]
      by_cases hf : first.pair directed = pair
      · have hp : edge.pair directed ≠ pair := fun hp => h (hf.trans hp.symm)
        simp [hf, hp]
      · simp [hf]

theorem insertStrict_merged {edges : List Edge} (h : ∀ other ∈ edges, other.pair directed = edge.pair directed) :
    insertStrict directed edge (Edge.merged edges).toList = (Edge.merged (edges ++ [edge])).toList := by
  cases edges with
  | nil => rfl
  | cons first rest =>
    have hf : first.pair directed = edge.pair directed := h first (List.mem_cons_self ..)
    simp [Edge.merged, insertStrict_cons, hf]

end

/-! ## Edges one after the other -/

theorem edges_ensureNode (graph : Graph) (name : String) : (graph.ensureNode name).edges = graph.edges := by
  unfold ensureNode
  split <;> rfl

theorem edges_addEdge (graph : Graph) (edge : Edge) :
    (graph.addEdge edge).kind = graph.kind ∧
      (graph.addEdge edge).edges =
        if graph.kind.strict then insertStrict graph.kind.directed edge graph.edges else graph.edges ++ [edge] := by
  unfold addEdge
  simp only [kind_ensureNode, edges_ensureNode]
  by_cases hs : graph.kind.strict = true
  · simp [hs]
  · simp [hs]

/-- What has become of edges that were added in turn to a strict graph. -/
structure JoinedByPair (directed : Bool) (added edges : List Edge) : Prop where
  pairs : edges.map (Edge.pair directed) = (added.map (Edge.pair directed)).eraseDups
  merged : ∀ pair, edges.filter (fun edge => edge.pair directed = pair) =
    (Edge.merged (added.filter fun edge => edge.pair directed = pair)).toList

theorem joinedByPair_nil (directed : Bool) : JoinedByPair directed [] [] := ⟨rfl, fun _ => rfl⟩

theorem JoinedByPair.insertStrict {directed : Bool} {added edges : List Edge} (h : JoinedByPair directed added edges)
    (edge : Edge) : JoinedByPair directed (added ++ [edge]) (insertStrict directed edge edges) where
  pairs := by
    rw [pairs_insertStrict, h.pairs, List.map_append, List.map_singleton, eraseDups_concat]
    simp only [List.mem_eraseDups]
  merged pair := by
    rw [filter_insertStrict, h.merged, List.filter_append]
    by_cases hp : edge.pair directed = pair
    · have hall : ∀ other ∈ added.filter (fun edge => edge.pair directed = pair),
          other.pair directed = edge.pair directed := by
        intro other ho
        rw [hp]
        simpa using List.of_mem_filter ho
      rw [if_pos hp, insertStrict_merged hall]
      simp [hp]
    · simp [hp]

theorem joinedByPair_foldl {graph : Graph} (hs : graph.kind.strict = true) {added : List Edge}
    (h : JoinedByPair graph.kind.directed added graph.edges) (calls : List Edge) :
    JoinedByPair graph.kind.directed (added ++ calls) (calls.foldl addEdge graph).edges := by
  induction calls generalizing graph added with
  | nil => simpa using h
  | cons call rest ih =>
    obtain ⟨hk, he⟩ := graph.edges_addEdge call
    have hnext : JoinedByPair (graph.addEdge call).kind.directed (added ++ [call]) (graph.addEdge call).edges := by
      rw [hk, he, if_pos hs]
      exact h.insertStrict call
    have hrest := ih (hk ▸ hs) hnext
    rwa [hk, List.append_assoc] at hrest

theorem edges_foldl_of_multi {graph : Graph} (hs : graph.kind.strict = false) (calls : List Edge) :
    (calls.foldl addEdge graph).edges = graph.edges ++ calls := by
  induction calls generalizing graph with
  | nil => simp
  | cons call rest ih =>
    obtain ⟨hk, he⟩ := graph.edges_addEdge call
    rw [List.foldl_cons, ih (hk ▸ hs), he, hs]
    simp

/-- Added to a graph without edges, edges are joined by their pairs if the graph is strict, and all kept if not. -/
theorem edges_foldl_addEdge {graph : Graph} (h : graph.edges = []) (calls : List Edge) :
    if graph.kind.strict then JoinedByPair graph.kind.directed calls (calls.foldl addEdge graph).edges
    else (calls.foldl addEdge graph).edges = calls := by
  by_cases hs : graph.kind.strict = true
  · rw [if_pos hs]
    have hstart : JoinedByPair graph.kind.directed [] graph.edges := by
      rw [h]
      exact joinedByPair_nil _
    exact joinedByPair_foldl hs hstart calls
  · rw [if_neg hs, edges_foldl_of_multi (Bool.eq_false_iff.2 hs), h]
    rfl

/-- Without direction an edge back is merged into the one that is there, which keeps its port; a loop is apart. -/
theorem edges_foldl_addEdge_back :
    let there : Edge := ⟨{ node := "a", port := some "p" }, { node := "b" }, ∅⟩
    let loop : Edge := ⟨{ node := "a" }, { node := "a" }, ∅⟩
    let back : Edge := ⟨{ node := "b" }, { node := "a" }, ⟨[⟨"color", .string "red"⟩]⟩⟩
    (new "" ⟨false, true⟩).edges = [] ∧
      JoinedByPair false [there, loop, back] ([there, loop, back].foldl addEdge (new "" ⟨false, true⟩)).edges ∧
      ([there, loop, back].foldl addEdge (new "" ⟨false, true⟩)).edges =
        [{ there with attributes := back.attributes }, loop] :=
  ⟨rfl, @edges_foldl_addEdge (new "" ⟨false, true⟩) rfl _, by decide⟩

end Graph

end DotLang
