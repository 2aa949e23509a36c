import DotLang.Proofs.Builder.Edges
import DotLang.Proofs.Builder.Rooted
import DotLang.Proofs.Grammar.Soundness

/-!
# Parsed graphs are well formed

What every call to a builder keeps holds of the builder at the end of a document, where no body is open any
more: then the finished part is all there is.
-/

namespace DotLang

/-- The names of groups are distinct, the nodes of groups and the ends of edges are in the root, and a
strict graph joins no two nodes twice. -/
structure Graph.WellFormed (graph : Graph) : Prop where
  distinct : graph.body.groupNames.Nodup
  members : ∀ group ∈ graph.body.hierarchy, ∀ name ∈ group.nodes.names, name ∈ graph.nodes.names
  ends : ∀ edge ∈ graph.edges, edge.source.node ∈ graph.nodes.names ∧ edge.destination.node ∈ graph.nodes.names
  single : graph.kind.strict = true → graph.edges.Pairwise fun a b => ¬ a.SamePair graph.kind.directed b

namespace Builder

/-- All that a builder keeps. -/
structure Sound (builder : Builder) : Prop where
  distinct : Distinct builder
  rooted : Rooted builder
  edges : builder.graph.EdgesFit

theorem sound_new (name : String) (kind : GraphKind) : Sound (Builder.new name kind).enterScope where
  distinct := ⟨List.nodup_nil, trivial⟩
  rooted := by
    refine ⟨fun body hb => absurd hb List.not_mem_nil, fun member hm => ?_⟩
    have hnew : (Subgraph.new name).memberNames = [] := memberNames_new name ∅
    exact absurd (hnew ▸ hm) List.not_mem_nil
  edges := ⟨fun edge he => absurd he List.not_mem_nil, fun _ => .nil⟩

theorem Sound.step {P : Attributes → Prop} {a b : Builder} (hs : Step P a b) (h : Sound a) : Sound b where
  distinct := h.distinct.step hs
  rooted := h.rooted.step hs h.distinct
  edges := edgesFit_step hs h.distinct h.edges

theorem Sound.opened {builder : Builder} (h : Sound builder) (name : String) : Sound (builder.openSubgraph name) :=
  h.step (P := fun _ => True) (.opening builder name)

/-- Without open bodies, what a builder keeps is that its graph is well formed. -/
theorem Sound.wellFormed {builder : Builder} (h : Sound builder) (hb : builder.bodies = []) :
    builder.graph.WellFormed where
  distinct := (List.nodup_append.1 h.distinct.nodup).1
  members group hg name hn := by
    rcases h.rooted.rooted name (Subgraph.mem_memberNames.2 ⟨group, hg, hn⟩) with hr | ⟨body, hm, -⟩
    · exact hr
    · rw [hb] at hm
      cases hm
  ends := h.edges.ends
  single := h.edges.single

end Builder

namespace Grammar
open Builder

section
variable {builder : Builder} (h : Sound builder)
include h

theorem sound_stmt (stmt : Stmt) : Sound (stmt.run builder) :=
  (stmt.steps (P := fun _ => True) _ fun _ _ => trivial).keep Sound.step h

theorem sound_body (body : Body) : Sound (body.run builder) :=
  (body.steps (P := fun _ => True) _ fun _ _ => trivial).keep Sound.step h

theorem sound_operand (operand : Operand) : Sound (operand.run builder).2 :=
  (operand.steps (P := fun _ => True) _ fun _ _ => trivial).keep Sound.step h

end

theorem Document.sound_finished (doc : Document) : doc.finished.Sound := sound_body (sound_new ..) doc.body

end Grammar

/-- Whatever its text, a graph that is read is well formed. -/
theorem wellFormed_of_parse {text : String} {graph : Graph} (h : parse text = .ok graph) : graph.WellFormed := by
  obtain ⟨doc, -, rfl, -⟩ := Grammar.parse_sound h
  exact doc.sound_finished.wellFormed doc.bodies_finished

/-- A strict graph in which an edge is mentioned twice and a group is opened twice. -/
def reopeningText : String :=
  "strict graph \x7b subgraph s \x7b a -- b \x7d subgraph s \x7b c \x7d b -- a \x7d"

theorem wellFormed_of_reopeningText : ∃ graph, parse reopeningText = .ok graph ∧ graph.WellFormed := by
  have h : (parse reopeningText).toOption.isSome = true := by
    rw [parse, reopeningText, Parser.ofString_ofList]
    decide +kernel
  cases hp : parse reopeningText with
  | error error =>
    rw [hp] at h
    cases h
  | ok graph => exact ⟨graph, rfl, wellFormed_of_parse hp⟩

end DotLang
