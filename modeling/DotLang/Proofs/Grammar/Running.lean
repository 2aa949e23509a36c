import DotLang.Proofs.Grammar.Tree

/-!
# Running a tree

A tree does to a builder what the calls of a builder do, one after the other. As many bodies are open in
the end as in the beginning, and the graph is of the same kind.
-/

namespace DotLang.Grammar
open Builder

/-! ## The attributes in a tree -/

mutual
/-- The collections of attributes that the statements of a tree set. -/
def Group.attributes : Group → List Attributes
  | .braced _ body => body.attributes
  | .reference _ => []

def Body.attributes : Body → List Attributes
  | .nil => []
  | .cons stmt _ rest => stmt.attributes ++ rest.attributes

def Operand.attributes : Operand → List Attributes
  | .node _ => []
  | .group group => group.attributes

def Chain.attributes : Chain → List Attributes
  | .nil => []
  | .cons _ operand rest => operand.attributes ++ rest.attributes

def Stmt.attributes : Stmt → List Attributes
  | .defaults _ first more => [attributesOf (first :: more)]
  | .assign name value => [⟨[⟨name.text, value.ident.value⟩]⟩]
  | .node _ attrs => [attributesOf attrs]
  | .group group => group.attributes
  | .edge first _ second more attrs =>
    first.attributes ++ (second.attributes ++ (more.attributes ++ [attributesOf attrs]))
end

theorem nodup_names_attributesOf (brackets : List (List Assignment)) : (attributesOf brackets).names.Nodup :=
  Attributes.nodup_names_foldl (fun _ a hn => Attributes.nodup_names_insert hn a.attribute) Attributes.nodup_names_empty _

mutual
/-- No name stands twice in a collection that a tree sets. -/
theorem Group.nodup_attributes : ∀ {group : Group}, ∀ attrs ∈ group.attributes, attrs.names.Nodup
  | .braced _ _ => Body.nodup_attributes
  | .reference _ => nofun

theorem Body.nodup_attributes : ∀ {body : Body}, ∀ attrs ∈ body.attributes, attrs.names.Nodup
  | .nil => nofun
  | .cons _ _ _ => List.forall_mem_append.2 ⟨Stmt.nodup_attributes, Body.nodup_attributes⟩

theorem Operand.nodup_attributes : ∀ {operand : Operand}, ∀ attrs ∈ operand.attributes, attrs.names.Nodup
  | .node _ => nofun
  | .group _ => Group.nodup_attributes

theorem Chain.nodup_attributes : ∀ {chain : Chain}, ∀ attrs ∈ chain.attributes, attrs.names.Nodup
  | .nil => nofun
  | .cons _ _ _ => List.forall_mem_append.2 ⟨Operand.nodup_attributes, Chain.nodup_attributes⟩

theorem Stmt.nodup_attributes : ∀ {stmt : Stmt}, ∀ attrs ∈ stmt.attributes, attrs.names.Nodup
  | .defaults _ first more => List.forall_mem_singleton.2 (nodup_names_attributesOf (first :: more))
  | .assign _ _ => List.forall_mem_singleton.2 (List.nodup_singleton _)
  | .node _ attrs => List.forall_mem_singleton.2 (nodup_names_attributesOf attrs)
  | .group _ => Group.nodup_attributes
  | .edge _ _ _ _ attrs => by
    rw [Stmt.attributes, List.forall_mem_append, List.forall_mem_append, List.forall_mem_append]
    refine ⟨Operand.nodup_attributes, Operand.nodup_attributes, Chain.nodup_attributes, ?_⟩
    exact List.forall_mem_singleton.2 (nodup_names_attributesOf attrs)
end

/-! ## The calls of a tree -/

section
variable {P : Attributes → Prop}

mutual
theorem Group.steps : ∀ (group : Group) (builder : Builder), (∀ attrs ∈ group.attributes, P attrs) →
    Steps P builder (group.run builder).2
  | .braced head body, builder, h => by
    have hopen : Steps P builder (builder.openSubgraph head.name) := .single (.opening ..)
    exact hopen.trans ((body.steps _ h).tail (.closing _))
  | .reference id, builder, _ => .single (.reference builder id.text)

theorem Body.steps : ∀ (body : Body) (builder : Builder), (∀ attrs ∈ body.attributes, P attrs) →
    Steps P builder (body.run builder)
  | .nil, _, _ => .refl
  | .cons stmt _ rest, builder, h => by
    rw [Body.attributes, List.forall_mem_append] at h
    exact (stmt.steps builder h.1).trans (rest.steps _ h.2)

theorem Operand.steps : ∀ (operand : Operand) (builder : Builder), (∀ attrs ∈ operand.attributes, P attrs) →
    Steps P builder (operand.run builder).2
  | .node _, _, _ => .refl
  | .group group, builder, h => group.steps builder h

theorem Chain.steps : ∀ (chain : Chain) (builder : Builder), (∀ attrs ∈ chain.attributes, P attrs) →
    Steps P builder (chain.run builder).2
  | .nil, _, _ => .refl
  | .cons _ operand rest, builder, h => by
    rw [Chain.attributes, List.forall_mem_append] at h
    exact (operand.steps builder h.1).trans (rest.steps _ h.2)

theorem Stmt.steps : ∀ (stmt : Stmt) (builder : Builder), (∀ attrs ∈ stmt.attributes, P attrs) →
    Steps P builder (stmt.run builder)
  | .defaults category _ _, builder, h => .single (.defaults builder category (h _ (List.mem_singleton_self _)))
  | .assign _ _, builder, h => .single (.assignment builder (h _ (List.mem_singleton_self _)))
  | .node id _, builder, h => .single (.node builder _ (h _ (List.mem_singleton_self _)))
  | .group group, builder, h => group.steps builder h
  | .edge first _ second more _, builder, h => by
    rw [Stmt.attributes, List.forall_mem_append, List.forall_mem_append, List.forall_mem_append] at h
    obtain ⟨hf, hs, hm, ha⟩ := h
    have hops := (first.steps builder hf).trans ((second.steps _ hs).trans (more.steps _ hm))
    exact hops.tail (.chain _ _ (ha _ (List.mem_singleton_self _)))
end

end

/-! ## The kind of the graph -/

theorem Group.kind_run (group : Group) (builder : Builder) : (group.run builder).2.kind = builder.kind :=
  (group.steps (P := fun _ => True) builder fun _ _ => trivial).kind

theorem Operand.kind_run (operand : Operand) (builder : Builder) : (operand.run builder).2.kind = builder.kind :=
  (operand.steps (P := fun _ => True) builder fun _ _ => trivial).kind

theorem Chain.kind_run (chain : Chain) (builder : Builder) : (chain.run builder).2.kind = builder.kind :=
  (chain.steps (P := fun _ => True) builder fun _ _ => trivial).kind

theorem Stmt.kind_run (stmt : Stmt) (builder : Builder) : (stmt.run builder).kind = builder.kind :=
  (stmt.steps (P := fun _ => True) builder fun _ _ => trivial).kind

/-! ## The open bodies -/

mutual
/-- A group leaves those bodies open that were open, and no others. -/
theorem Group.names_run : ∀ (group : Group) (builder : Builder),
    (group.run builder).2.bodies.map Subgraph.name = builder.bodies.map Subgraph.name
  | .braced head body, builder => by
    rw [Group.run, names_closeSubgraph, body.names_run]
    rfl
  | .reference id, builder => names_referToSubgraph builder id.text

theorem Body.names_run : ∀ (body : Body) (builder : Builder),
    (body.run builder).bodies.map Subgraph.name = builder.bodies.map Subgraph.name
  | .nil, _ => rfl
  | .cons stmt _ rest, builder => by rw [Body.run, rest.names_run, stmt.names_run]

theorem Operand.names_run : ∀ (operand : Operand) (builder : Builder),
    (operand.run builder).2.bodies.map Subgraph.name = builder.bodies.map Subgraph.name
  | .node _, _ => rfl
  | .group group, builder => group.names_run builder

theorem Chain.names_run : ∀ (chain : Chain) (builder : Builder),
    (chain.run builder).2.bodies.map Subgraph.name = builder.bodies.map Subgraph.name
  | .nil, _ => rfl
  | .cons _ operand rest, builder => by rw [Chain.run, rest.names_run, operand.names_run]

theorem Stmt.names_run : ∀ (stmt : Stmt) (builder : Builder),
    (stmt.run builder).bodies.map Subgraph.name = builder.bodies.map Subgraph.name
  | .defaults category _ _, builder => names_of_grows (grows_setDefaults builder category _)
  | .assign _ _, builder => names_of_grows (grows_assign builder _)
  | .node _ _, builder => names_of_grows (grows_declareNode builder _ _)
  | .group group, builder => group.names_run builder
  | .edge first _ second more attrs, builder => by
    rw [Stmt.run, names_of_grows (grows_connect ..), more.names_run, second.names_run, first.names_run]
end

theorem length_eq_of_names {a b : Builder} (h : a.bodies.map Subgraph.name = b.bodies.map Subgraph.name) :
    a.bodies.length = b.bodies.length := by
  simpa using congrArg List.length h

theorem Group.length_run (group : Group) (builder : Builder) :
    (group.run builder).2.bodies.length = builder.bodies.length :=
  length_eq_of_names (group.names_run builder)

theorem Operand.length_run (operand : Operand) (builder : Builder) :
    (operand.run builder).2.bodies.length = builder.bodies.length :=
  length_eq_of_names (operand.names_run builder)

theorem Stmt.length_run (stmt : Stmt) (builder : Builder) :
    (stmt.run builder).bodies.length = builder.bodies.length :=
  length_eq_of_names (stmt.names_run builder)

/-- A document leaves no body open. -/
theorem Document.bodies_finished (doc : Document) : doc.finished.bodies = [] :=
  List.map_eq_nil_iff.1 (doc.body.names_run _)

end DotLang.Grammar
