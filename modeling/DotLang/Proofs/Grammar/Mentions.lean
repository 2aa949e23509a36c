import DotLang.Proofs.Builder.Holding
import DotLang.Proofs.Grammar.Reading

/-!
# The nodes that a document mentions

A node of the graph is one that a node statement declares, at any depth, or one that an edge statement
joins to another. A node that is an operand comes in only with an edge: between groups without nodes it has
none, and then the graph does not have it.
-/

namespace DotLang.Grammar
open Builder

mutual
/-- The nodes of node statements, at any depth. -/
def Group.declared : Group → List String
  | .braced _ body => body.declared
  | .reference _ => []

def Body.declared : Body → List String
  | .nil => []
  | .cons stmt _ rest => stmt.declared ++ rest.declared

def Operand.declared : Operand → List String
  | .node _ => []
  | .group group => group.declared

def Chain.declared : Chain → List String
  | .nil => []
  | .cons _ operand rest => operand.declared ++ rest.declared

def Stmt.declared : Stmt → List String
  | .defaults .. | .assign .. => []
  | .node id _ => [id.endpoint.node]
  | .group group => group.declared
  | .edge first _ second more _ => first.declared ++ (second.declared ++ more.declared)
end

mutual
/-- The chains of operands that edge statements connect, at any depth; a group stands for the nodes that it
has when it ends. -/
def Group.chains (builder : Builder) : Group → List (List DotLang.Operand)
  | .braced head body => body.chains (builder.openSubgraph head.name)
  | .reference _ => []

def Body.chains (builder : Builder) : Body → List (List DotLang.Operand)
  | .nil => []
  | .cons stmt _ rest => stmt.chains builder ++ rest.chains (stmt.run builder)

def Operand.chains (builder : Builder) : Operand → List (List DotLang.Operand)
  | .node _ => []
  | .group group => group.chains builder

def Chain.chains (builder : Builder) : Chain → List (List DotLang.Operand)
  | .nil => []
  | .cons _ operand rest => operand.chains builder ++ rest.chains (operand.run builder).2

def Stmt.chains (builder : Builder) : Stmt → List (List DotLang.Operand)
  | .defaults .. | .assign .. | .node .. => []
  | .group group => group.chains builder
  | .edge first _ second more _ =>
    let last := second.run (first.run builder).2
    first.chains builder ++ (second.chains (first.run builder).2 ++ (more.chains last.2 ++
      [(first.run builder).1 :: last.1 :: (more.run last.2).1]))
end

def Document.declared (doc : Document) : List String := doc.body.declared

def Document.chains (doc : Document) : List (List DotLang.Operand) :=
  doc.body.chains (Builder.new (nameText doc.name) doc.kind).enterScope

/-! ## Running -/

/-- The node is declared, or joined by one of the chains. -/
def Brings (declared : List String) (chains : List (List DotLang.Operand)) (name : String) : Prop :=
  name ∈ declared ∨ ∃ chain ∈ chains, Joins chain name

section
variable {name : String}

theorem brings_append {declared declared' : List String} {chains chains' : List (List DotLang.Operand)} :
    Brings (declared ++ declared') (chains ++ chains') name ↔
      Brings declared chains name ∨ Brings declared' chains' name := by
  unfold Brings
  simp only [List.mem_append, or_and_right, exists_or]
  exact or_or_or_comm

theorem brings_nil : ¬ Brings [] [] name := by
  simp [Brings]

theorem brings_chain {chain : List DotLang.Operand} : Brings [] [chain] name ↔ Joins chain name := by
  simp [Brings]

mutual
theorem Group.holds_run : ∀ (group : Group) {builder : Builder}, Sound builder →
    ((group.run builder).2.Holds name ↔ builder.Holds name ∨ Brings group.declared (group.chains builder) name)
  | .braced head body, builder, hs => by
    have hopen := hs.opened head.name
    rw [Group.run, holds_closeSubgraph (sound_body hopen body), body.holds_run hopen, holds_openSubgraph]
    rfl
  | .reference id, _, hs => by
    rw [Group.run, holds_referToSubgraph hs]
    exact (or_iff_left brings_nil).symm

theorem Body.holds_run : ∀ (body : Body) {builder : Builder}, Sound builder →
    ((body.run builder).Holds name ↔ builder.Holds name ∨ Brings body.declared (body.chains builder) name)
  | .nil, _, _ => (or_iff_left brings_nil).symm
  | .cons stmt _ rest, builder, hs => by
    rw [Body.run, rest.holds_run (sound_stmt hs stmt), stmt.holds_run hs, Body.declared, Body.chains, brings_append, or_assoc]

theorem Operand.holds_run : ∀ (operand : Operand) {builder : Builder}, Sound builder →
    ((operand.run builder).2.Holds name ↔
      builder.Holds name ∨ Brings operand.declared (operand.chains builder) name)
  | .node _, _, _ => (or_iff_left brings_nil).symm
  | .group group, _, hs => group.holds_run hs

theorem Chain.holds_run : ∀ (chain : Chain) {builder : Builder}, Sound builder →
    ((chain.run builder).2.Holds name ↔ builder.Holds name ∨ Brings chain.declared (chain.chains builder) name)
  | .nil, _, _ => (or_iff_left brings_nil).symm
  | .cons _ operand rest, builder, hs => by
    rw [Chain.run, rest.holds_run (sound_operand hs operand), operand.holds_run hs, Chain.declared, Chain.chains, brings_append, or_assoc]

theorem Stmt.holds_run : ∀ (stmt : Stmt) {builder : Builder}, Sound builder →
    ((stmt.run builder).Holds name ↔ builder.Holds name ∨ Brings stmt.declared (stmt.chains builder) name)
  | .defaults category first more, builder, _ => by
    rw [Stmt.run, holds_setDefaults]
    exact (or_iff_left brings_nil).symm
  | .assign _ _, builder, _ => by
    rw [Stmt.run, holds_assign]
    exact (or_iff_left brings_nil).symm
  | .node id attrs, builder, _ => by
    rw [Stmt.run, holds_declareNode]
    simp [Brings, Stmt.declared, Stmt.chains]
  | .group group, _, hs => group.holds_run hs
  | .edge first _ second more attrs, builder, hs => by
    have hfirst := sound_operand hs first
    have hsecond := sound_operand hfirst second
    rw [Stmt.run, holds_connect, more.holds_run hsecond, second.holds_run hfirst, first.holds_run hs, Stmt.declared,
      Stmt.chains, brings_append, brings_append, ← List.append_nil more.declared, brings_append, brings_chain]
    simp only [or_assoc, List.append_nil]
end

theorem Document.mem_nodes_graph (doc : Document) :
    name ∈ doc.graph.nodes.names ↔ Brings doc.declared doc.chains name := by
  let start := (Builder.new (nameText doc.name) doc.kind).enterScope
  have hstart : ¬ start.Holds name := by
    rintro (h | h)
    · exact absurd h List.not_mem_nil
    · exact absurd h List.not_mem_nil
  have hrun : doc.finished.Holds name ↔ start.Holds name ∨ Brings doc.declared doc.chains name :=
    doc.body.holds_run (sound_new ..)
  rw [or_iff_right hstart] at hrun
  rw [← hrun]
  unfold Builder.Holds
  rw [doc.bodies_finished]
  exact (or_iff_left List.not_mem_nil).symm

end

/-- The nodes of an accepted document: those that are declared, and those of two operands that are neighbours
in a chain and have nodes both. -/
theorem mem_nodes_iff_mentioned {doc : Document} {text : String} (hr : doc.Reads text) :
    ∃ graph, parse text = .ok graph ∧ ∀ name, name ∈ graph.nodes.names ↔
      name ∈ doc.declared ∨ ∃ chain ∈ doc.chains, ∃ left right, [left, right] <:+: chain ∧
        left.endpoints ≠ [] ∧ right.endpoints ≠ [] ∧ name ∈ (left.endpoints ++ right.endpoints).map Endpoint.node := by
  refine ⟨doc.graph, hr.parse, fun name => ?_⟩
  rw [doc.mem_nodes_graph]
  unfold Brings
  simp only [joins_iff]

/-- A chain that ends in a group without nodes, one that does not, and a declaration. -/
def operandText : String := "graph \x7b a -- \x7b \x7d b -- \x7b c \x7d subgraph s \x7b d \x7d \x7d"

def operandDocument : Document where
  strict := false
  directed := false
  name := none
  body :=
    .cons (.edge (.node ⟨.word "a", .absent⟩) false (.group (.braced .absent .nil)) .nil []) false <|
    .cons (.edge (.node ⟨.word "b", .absent⟩) false
      (.group (.braced .absent (.cons (.node ⟨.word "c", .absent⟩ []) false .nil))) .nil []) false <|
    .cons (.group (.braced (.keyword (some (.word "s"))) (.cons (.node ⟨.word "d", .absent⟩ []) false .nil))) false .nil

theorem operandDocument_reads : operandDocument.Reads operandText where
  greedy := by
    simp [operandDocument, Document.Greedy, Body.Greedy, Stmt.Greedy, Operand.Greedy, Group.Greedy, Chain.Greedy,
      Body.Apart, Stmt.isOpen, Chain.isOpen, Operand.isOpen, Group.isOpen]
  admissible := by
    simp [operandDocument, Document.Admissible, Body.Admissible, Stmt.Admissible, Operand.Admissible, Group.Admissible,
      Chain.Admissible, AttrsCanName, maxNesting]
  tokens := by
    rw [operandText, Lexer.ofString_ofList]
    decide +kernel

theorem mentioned_operandText : operandDocument.Reads operandText ∧ ∃ graph, parse operandText = .ok graph ∧
    ∀ name, name ∈ graph.nodes.names ↔
      name ∈ operandDocument.declared ∨ ∃ chain ∈ operandDocument.chains, ∃ left right, [left, right] <:+: chain ∧
        left.endpoints ≠ [] ∧ right.endpoints ≠ [] ∧ name ∈ (left.endpoints ++ right.endpoints).map Endpoint.node :=
  ⟨operandDocument_reads, mem_nodes_iff_mentioned operandDocument_reads⟩

/-- The node in front of the empty group is lost. -/
theorem lost_operand : ∃ graph, parse operandText = .ok graph ∧
    (∃ chain ∈ operandDocument.chains, .node { node := "a" } ∈ chain) ∧ "a" ∉ graph.nodes.names :=
  ⟨operandDocument.graph, Document.Reads.parse operandDocument_reads, by decide, by decide +kernel⟩

end DotLang.Grammar
