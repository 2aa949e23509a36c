import DotLang.Proofs.Grammar.Completeness
import DotLang.Proofs.Writing.Rereading

/-!
# What is written is parsed

The document that is written for a graph is one that a parser finds: its statements end in brackets, braces
or names of nodes, so that none of them could take over the next, and its bodies are as deep as the groups
of the graph are. Hence the text is parsed, and `Graph.reread` is what comes out.
-/

namespace DotLang
open Grammar

mutual
/-- How many bodies are open at once, at most, when the groups below one are written. -/
def Subgraph.height : Subgraph → Nat
  | ⟨_, _, _, children⟩ => Subgraph.heights children

def Subgraph.heights : List Subgraph → Nat
  | [] => 0
  | child :: rest => max (child.height + 1) (Subgraph.heights rest)
end

/-! ## Statements that a parser finds -/

/-- A statement that may stand in a body with others behind it. -/
structure Grammar.Stmt.Fits (directed : Bool) (depth : Nat) (stmt : Stmt) : Prop where
  admissible : stmt.Admissible directed depth
  greedy : stmt.Greedy
  closed : stmt.isOpen = false

section
variable {directed : Bool} {depth : Nat}

theorem Grammar.Body.admissible_ofList : ∀ {statements : List (Stmt × Bool)},
    (∀ stmt ∈ statements, stmt.1.Fits directed depth) → (Body.ofList statements).Admissible directed depth
  | [], _ => trivial
  | (stmt, _) :: rest, h => by
    rw [List.forall_mem_cons] at h
    exact ⟨h.1.admissible, Body.admissible_ofList h.2⟩

theorem Grammar.Body.greedy_ofList : ∀ {statements : List (Stmt × Bool)},
    (∀ stmt ∈ statements, stmt.1.Fits directed depth) → (Body.ofList statements).Greedy
  | [], _ => trivial
  | (stmt, semicolon) :: rest, h => by
    rw [List.forall_mem_cons] at h
    refine ⟨h.1.greedy, Body.greedy_ofList h.2, ?_⟩
    cases rest with
    | nil => trivial
    | cons next rest =>
      intro _ ho
      rw [h.1.closed] at ho
      cases ho

theorem canName_attributeId {attr : Attribute} (h : attr.Readable) : (attributeId attr.name).CanName := by
  unfold Id.CanName
  rw [text_attributeId]
  exact ⟨h.ne_empty, h.name.quotable⟩

theorem attrsCanName_brackets {attrs : Attributes} (h : ∀ attr ∈ attrs.entries, attr.Readable) :
    AttrsCanName attrs.brackets := by
  have hall : ∀ a ∈ attrs.assignments, a.name.CanName := by
    intro a ha
    obtain ⟨attr, hm, rfl⟩ := List.mem_map.1 ha
    exact canName_attributeId (h attr hm)
  unfold Attributes.brackets AttrsCanName
  split
  · exact nofun
  · rwa [List.flatten_singleton]

theorem fits_attributes {attrs : Attributes} (h : ∀ attr ∈ attrs.entries, attr.Readable) :
    ∀ stmt ∈ attrs.statements, stmt.1.Fits directed depth := by
  intro stmt hs
  obtain ⟨attr, hm, rfl⟩ := List.mem_map.1 hs
  exact ⟨canName_attributeId (h attr hm), trivial, rfl⟩

theorem fits_node {inSubgraph : Bool} {node : Node}
    (h : inSubgraph = false → ∀ attr ∈ node.attributes.entries, attr.Readable) :
    (node.statement inSubgraph).1.Fits directed depth := by
  refine ⟨attrsCanName_brackets fun attr hm => ?_, trivial, rfl⟩
  cases inSubgraph with
  | true => cases hm
  | false => exact h rfl attr hm

theorem fits_edge {edge : Edge} (h : ∀ attr ∈ edge.attributes.entries, attr.Readable) :
    (edge.statement directed).1.Fits directed depth where
  admissible := ⟨trivial, rfl, trivial, trivial, attrsCanName_brackets h⟩
  greedy := ⟨trivial, trivial, trivial⟩
  closed := by
    unfold Edge.statement
    cases edge.attributes.brackets <;> rfl

mutual
theorem fits_body (inSubgraph : Bool) : ∀ {depth : Nat} (sub : Subgraph),
    (∀ group ∈ sub.hierarchy, ∀ attr ∈ group.attributes.entries, attr.Readable) →
    (inSubgraph = false → ∀ node ∈ sub.nodes.toList, ∀ attr ∈ node.attributes.entries, attr.Readable) →
    depth + sub.height ≤ maxNesting → ∀ stmt ∈ sub.statements inSubgraph, stmt.1.Fits directed depth
  | depth, ⟨name, attrs, nodes, children⟩, ha, hn, hd => by
    rw [Subgraph.hierarchy_eq, List.forall_mem_cons] at ha
    rw [Subgraph.statements, List.forall_mem_append, List.forall_mem_append]
    refine ⟨⟨fits_attributes ha.1, ?_⟩, fits_children children ha.2 hd⟩
    intro stmt hs
    obtain ⟨node, hm, rfl⟩ := List.mem_map.1 hs
    exact fits_node fun hsub => hn hsub node hm

theorem fits_children : ∀ {depth : Nat} (children : List Subgraph),
    (∀ group ∈ children.flatMap Subgraph.hierarchy, ∀ attr ∈ group.attributes.entries, attr.Readable) →
    depth + Subgraph.heights children ≤ maxNesting →
      ∀ stmt ∈ Subgraph.groupStatements children, stmt.1.Fits directed depth
  | _, [], _, _ => nofun
  | depth, child :: rest, ha, hd => by
    rw [List.flatMap_cons, List.forall_mem_append] at ha
    rw [Subgraph.heights] at hd
    have hbody : ∀ stmt ∈ child.statements true, stmt.1.Fits directed (depth + 1) :=
      fits_body true child ha.1 nofun (by omega)
    rw [Subgraph.groupStatements, List.forall_mem_cons]
    refine ⟨⟨⟨by omega, Body.admissible_ofList hbody⟩, Body.greedy_ofList hbody, rfl⟩, ?_⟩
    exact fits_children rest ha.2 (by omega)
end

end

/-! ## Parsing the text of a graph -/

theorem fits_document {graph : Graph} (h : graph.Legible) (hd : graph.body.height ≤ maxNesting) :
    ∀ stmt ∈ graph.body.statements false ++ graph.edges.map (Edge.statement graph.kind.directed),
      stmt.1.Fits graph.kind.directed 0 := by
  rw [List.forall_mem_append]
  refine ⟨fits_body false graph.body (fun group hg => (h.groups group hg).attributes) (fun _ => h.nodes) (by omega), ?_⟩
  intro stmt hs
  obtain ⟨edge, hm, rfl⟩ := List.mem_map.1 hs
  exact fits_edge (h.edges edge hm).2.2

/-- The text of a graph is parsed, and what comes out is the graph as it is read back. -/
theorem parse_toDot {graph : Graph} (hl : graph.Legible) (hr : graph.Regular) (hd : graph.body.height ≤ maxNesting) :
    parse graph.toDot = .ok graph.reread := by
  have hfits := fits_document hl hd
  rw [← graph_document hr]
  exact parse_complete (Body.greedy_ofList hfits) (Body.admissible_ofList hfits) (tokens_toDot hl)

end DotLang
