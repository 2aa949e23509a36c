import DotLang.Proofs.Builder.Built
import DotLang.Proofs.WellFormed
import DotLang.Proofs.Writing.Rereading

/-!
# Parsed graphs can be written

The values of a parsed graph come from tokens, so each has a written form that is read as that value. The
names come from tokens, too, but markup may stand where a name is wanted; so that all names are `Readable`
is all that is missing to what the writer asks for.
-/

namespace DotLang
open Grammar

/-! ## The attributes in a tree -/

/-- An attribute that a document can give: it has a name, and a value that is read back as it is. -/
structure Attribute.Proper (attr : Attribute) : Prop where
  ne_empty : attr.name ≠ ""
  value : attr.value.Readable

/-- All tokens are clean. -/
def CleanTokens (tokens : List Token) : Prop := ∀ token ∈ tokens, token.Clean

theorem CleanTokens.left {a b : List Token} (h : CleanTokens (a ++ b)) : CleanTokens a :=
  fun token ht => h token (List.mem_append_left _ ht)

theorem CleanTokens.right {a b : List Token} (h : CleanTokens (a ++ b)) : CleanTokens b :=
  fun token ht => h token (List.mem_append_right _ ht)

theorem CleanTokens.tail {token : Token} {rest : List Token} (h : CleanTokens (token :: rest)) : CleanTokens rest :=
  fun other ho => h other (List.mem_cons_of_mem _ ho)

namespace Grammar

theorem Id.readable_value {id : Id} (h : CleanTokens id.tokens) : id.ident.value.Readable := by
  cases id with
  | html markup => exact h _ (List.mem_singleton_self _)
  | word name => exact Id.readable_of_plain h rfl
  | numeral text => exact Id.readable_of_plain h rfl
  | strings first more => exact Id.readable_of_plain h rfl

theorem Assignment.proper {a : Assignment} (h : CleanTokens a.tokens) (hn : a.name.CanName) : a.attribute.Proper :=
  ⟨hn.1, Id.readable_value (h.right.tail.left)⟩

theorem built_attributesOf {brackets : List (List Assignment)} (h : CleanTokens (attrTokens brackets))
    (hn : AttrsCanName brackets) : (attributesOf brackets).Built Attribute.Proper := by
  have hclean : ∀ a ∈ brackets.flatten, CleanTokens a.tokens := by
    intro a ha token ht
    obtain ⟨bracket, hb, hm⟩ := List.mem_flatten.1 ha
    refine h token (List.mem_flatMap.2 ⟨bracket, hb, List.mem_cons_of_mem _ (List.mem_append_left _ ?_)⟩)
    exact List.mem_flatMap.2 ⟨a, hm, ht⟩
  unfold attributesOf
  rw [← List.foldl_map (f := Assignment.attribute) (g := Attributes.insert)]
  refine Attributes.Built.empty.foldl fun attr ha => ?_
  obtain ⟨a, hm, rfl⟩ := List.mem_map.1 ha
  exact Assignment.proper (hclean a hm) (hn a hm)

section
variable {directed : Bool}

mutual
/-- Every collection that a tree sets has proper attributes. -/
theorem Group.built_attributes : ∀ {depth : Nat} {group : Group}, CleanTokens group.tokens →
    group.Admissible directed depth → ∀ attrs ∈ group.attributes, attrs.Built Attribute.Proper
  | _, .braced _ _, h, ha => Body.built_attributes h.right.tail.left ha.2
  | _, .reference _, _, _ => nofun

theorem Body.built_attributes : ∀ {depth : Nat} {body : Body}, CleanTokens body.tokens →
    body.Admissible directed depth → ∀ attrs ∈ body.attributes, attrs.Built Attribute.Proper
  | _, .nil, _, _ => nofun
  | _, .cons stmt _ rest, h, ha => by
    rw [Body.tokens] at h
    rw [Body.attributes, List.forall_mem_append]
    exact ⟨Stmt.built_attributes h.left ha.1, Body.built_attributes h.right.right ha.2⟩

theorem Operand.built_attributes : ∀ {depth : Nat} {operand : Operand}, CleanTokens operand.tokens →
    operand.Admissible directed depth → ∀ attrs ∈ operand.attributes, attrs.Built Attribute.Proper
  | _, .node _, _, _ => nofun
  | _, .group _, h, ha => Group.built_attributes h ha

theorem Chain.built_attributes : ∀ {depth : Nat} {chain : Chain}, CleanTokens chain.tokens →
    chain.Admissible directed depth → ∀ attrs ∈ chain.attributes, attrs.Built Attribute.Proper
  | _, .nil, _, _ => nofun
  | _, .cons _ operand rest, h, ha => by
    rw [Chain.tokens] at h
    rw [Chain.attributes, List.forall_mem_append]
    exact ⟨Operand.built_attributes h.tail.left ha.2.1, Chain.built_attributes h.tail.right ha.2.2⟩

theorem Stmt.built_attributes : ∀ {depth : Nat} {stmt : Stmt}, CleanTokens stmt.tokens →
    stmt.Admissible directed depth → ∀ attrs ∈ stmt.attributes, attrs.Built Attribute.Proper
  | _, .defaults _ _ _, h, ha => List.forall_mem_singleton.2 (built_attributesOf h.tail ha)
  | _, .assign _ _, h, ha => by
    refine List.forall_mem_singleton.2 ⟨List.nodup_singleton _, List.forall_mem_singleton.2 ⟨ha.1, ?_⟩⟩
    exact Id.readable_value h.right.tail
  | _, .node _ _, h, ha => List.forall_mem_singleton.2 (built_attributesOf h.right ha)
  | _, .group _, h, ha => Group.built_attributes h ha
  | _, .edge first directed second more attrs, h, ⟨hf, _, hs, hm, ha⟩ => by
    rw [Stmt.tokens] at h
    rw [Stmt.attributes, List.forall_mem_append, List.forall_mem_append, List.forall_mem_append]
    refine ⟨Operand.built_attributes h.left hf, Operand.built_attributes h.right.tail.left hs, ?_, ?_⟩
    · exact Chain.built_attributes h.right.tail.right.left hm
    · exact List.forall_mem_singleton.2 (built_attributesOf h.right.tail.right.right ha)
end

end

end Grammar

/-! ## Parsed graphs -/

/-- The attributes of a parsed graph are proper, and no name stands twice among them. -/
theorem built_of_parse {text : String} {graph : Graph} (h : parse text = .ok graph) : graph.Built Attribute.Proper := by
  obtain ⟨doc, ha, rfl, ht⟩ := parse_sound h
  have hclean : CleanTokens doc.tokens := by
    intro token hm
    refine Lexer.clean_of_mem_tokens (?_ : Except.ok token ∈ (Lexer.ofString text).tokens)
    rw [ht]
    exact List.mem_map_of_mem (List.mem_append_left _ hm)
  have hbody : CleanTokens doc.body.tokens := hclean.right.tail.right.tail.left
  let start := (Builder.new (nameText doc.name) doc.kind).enterScope
  have hsteps := doc.body.steps (P := Attributes.Built Attribute.Proper) start (Body.built_attributes hbody ha)
  have hfinished : doc.finished.Built Attribute.Proper := hsteps.keep Builder.Built.step (Builder.built_start ..)
  exact hfinished.graph

theorem regular_of_parse {text : String} {graph : Graph} (h : parse text = .ok graph) : graph.Regular where
  attributes group hg := (Subgraph.built_iff.1 ((built_of_parse h).body.of_mem hg)).1.nodup
  nodes node hn := ((Subgraph.built_iff.1 (built_of_parse h).body).2.1 node hn).nodup
  edges edge he := by
    obtain ⟨hs, hd⟩ := (wellFormed_of_parse h).ends edge he
    exact ⟨hs, hd, ((built_of_parse h).edges edge he).nodup⟩
  single := (wellFormed_of_parse h).single
  distinct := (wellFormed_of_parse h).distinct

/-! ## Names -/

def Endpoint.names (endpoint : Endpoint) : List String := endpoint.node :: endpoint.port.toList

/-- All names in a graph: of the graph and its groups, of nodes, of ports and of attributes. -/
def Graph.names (graph : Graph) : List String :=
  (graph.body.hierarchy.flatMap fun group => group.name :: (group.attributes.names ++ group.nodes.names))
    ++ (graph.nodes.toList.flatMap fun node => node.attributes.names)
    ++ graph.edges.flatMap fun edge => edge.source.names ++ (edge.destination.names ++ edge.attributes.names)

theorem readable_of_names {attrs : Attributes} (h : attrs.Built Attribute.Proper)
    (hn : ∀ name ∈ attrs.names, Readable name) : ∀ attr ∈ attrs.entries, attr.Readable :=
  fun attr ha => ⟨(h.entries attr ha).ne_empty, hn attr.name (List.mem_map_of_mem ha), (h.entries attr ha).value⟩

theorem readable_endpoint {endpoint : Endpoint} (h : ∀ name ∈ endpoint.names, Readable name) : endpoint.Readable where
  node := h _ (List.mem_cons_self ..)
  port port hp := h port (List.mem_cons_of_mem _ (Option.mem_toList.2 hp))

/-- A parsed graph whose names are read back can be written. -/
theorem legible_of_parse {text : String} {graph : Graph} (h : parse text = .ok graph)
    (hn : ∀ name ∈ graph.names, Readable name) : graph.Legible := by
  have hbuilt := built_of_parse h
  unfold Graph.names at hn
  rw [List.forall_mem_append, List.forall_mem_append, List.forall_mem_flatMap, List.forall_mem_flatMap,
    List.forall_mem_flatMap] at hn
  obtain ⟨⟨hgroups, hnodes⟩, hedges⟩ := hn
  refine ⟨fun group hg => ?_, fun node hm => ?_, fun edge he => ?_⟩
  · have hnames := hgroups group hg
    rw [List.forall_mem_cons, List.forall_mem_append] at hnames
    obtain ⟨hname, hattrs, hmembers⟩ := hnames
    have hown := (Subgraph.built_iff.1 (hbuilt.body.of_mem hg)).1
    exact ⟨hname, readable_of_names hown hattrs, fun node hm => hmembers _ (List.mem_map_of_mem hm)⟩
  · exact readable_of_names ((Subgraph.built_iff.1 hbuilt.body).2.1 node hm) (hnodes node hm)
  · have hnames := hedges edge he
    rw [List.forall_mem_append, List.forall_mem_append] at hnames
    obtain ⟨hsource, hdestination, hattrs⟩ := hnames
    exact ⟨readable_endpoint hsource, readable_endpoint hdestination,
      readable_of_names (hbuilt.edges edge he) hattrs⟩

end DotLang
