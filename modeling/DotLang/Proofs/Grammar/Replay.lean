import DotLang.Proofs.Builder.Built
import DotLang.Proofs.Builder.Gaining
import DotLang.Proofs.Grammar.Mentions
import DotLang.Proofs.Grammar.Surroundings

/-!
# The order in which node statements take effect

Without edges, a node has in the end what its statements say, merged one after the other. But a group in
another one hands over what it has twice when it ends: it merges that into the body around it, and stays
below with a copy. The copy comes in once more when the body around ends, behind all that the body has by
then. So the order is that of the text only if no statement stands behind such a group.
-/

namespace DotLang.Grammar
open Builder Subgraph Attributes

/-! ## Statements of a document without edges -/

mutual
/-- There is no edge statement, at any depth. -/
def Group.EdgeFree : Group → Prop
  | .braced _ body => body.EdgeFree
  | .reference _ => True

def Body.EdgeFree : Body → Prop
  | .nil => True
  | .cons stmt _ rest => stmt.EdgeFree ∧ rest.EdgeFree

def Stmt.EdgeFree : Stmt → Prop
  | .group group => group.EdgeFree
  | .edge .. => False
  | .defaults .. | .assign .. | .node .. => True
end

section
variable (node : String)

/-- What a node statement says of the node: its defaults, under its own attributes. -/
def stated (scopes : Scopes) (id : NodeId) (attrs : List (List Assignment)) : List Attributes :=
  if id.endpoint.node = node then [(scopes.inherited .node).merge (attributesOf attrs)] else []

mutual
/-- What the statements say of the node, in the order of the text. -/
def Group.said (scopes : Scopes) : Group → List Attributes
  | .braced _ body => body.said scopes.push
  | .reference _ => []

def Body.said (scopes : Scopes) : Body → List Attributes
  | .nil => []
  | .cons stmt _ rest => stmt.said scopes ++ rest.said (stmt.scopes scopes)

def Stmt.said (scopes : Scopes) : Stmt → List Attributes
  | .node id attrs => stated node scopes id attrs
  | .group group => group.said scopes
  | .defaults .. | .assign .. | .edge .. => []
end

mutual
/-- What a group that ends hands over: what is its own, and then what is below it. -/
def Group.replayed (scopes : Scopes) : Group → List Attributes
  | .braced _ body => body.own scopes.push ++ body.inner scopes.push
  | .reference _ => []

/-- What comes together in a body of its own. -/
def Body.own (scopes : Scopes) : Body → List Attributes
  | .nil => []
  | .cons stmt _ rest => stmt.own scopes ++ rest.own (stmt.scopes scopes)

def Stmt.own (scopes : Scopes) : Stmt → List Attributes
  | .node id attrs => stated node scopes id attrs
  | .group group => group.replayed scopes
  | .defaults .. | .assign .. | .edge .. => []

/-- What comes together in the groups below a body. -/
def Body.inner (scopes : Scopes) : Body → List Attributes
  | .nil => []
  | .cons stmt _ rest => stmt.inner scopes ++ rest.inner (stmt.scopes scopes)

def Stmt.inner (scopes : Scopes) : Stmt → List Attributes
  | .group group => group.replayed scopes
  | .defaults .. | .assign .. | .node .. | .edge .. => []
end

mutual
/-- Each group in another one, if it declares the node, has a name that is not read before it ends, or none. -/
def Group.OpensNew (inside : Bool) (seen : List String) : Group → Prop
  | .braced head body =>
    (inside = true → node ∈ body.declared → head.name = "" ∨ head.name ∉ seen ++ body.headings) ∧
      body.OpensNew true (head.name :: seen)
  | .reference _ => True

def Body.OpensNew (inside : Bool) (seen : List String) : Body → Prop
  | .nil => True
  | .cons stmt _ rest => stmt.OpensNew inside seen ∧ rest.OpensNew inside (seen ++ stmt.headings)

def Stmt.OpensNew (inside : Bool) (seen : List String) : Stmt → Prop
  | .group group => group.OpensNew inside seen
  | .defaults .. | .assign .. | .node .. | .edge .. => True
end

/-- It is a node statement, and for the node. -/
def Stmt.States : Stmt → Prop
  | .node id _ => id.endpoint.node = node
  | .group _ | .defaults .. | .assign .. | .edge .. => False

/-- A statement of the body itself is one for the node. -/
def Body.States : Body → Prop
  | .nil => False
  | .cons stmt _ rest => stmt.States node ∨ rest.States

/-- It is a group, and declares the node. -/
def Stmt.Encloses : Stmt → Prop
  | .group inside => node ∈ inside.declared
  | .defaults .. | .assign .. | .node .. | .edge .. => False

mutual
/-- In each group, no statement for the node stands behind a group that declares it. -/
def Group.GroupsLast : Group → Prop
  | .braced _ body => body.GroupsLast true
  | .reference _ => True

def Body.GroupsLast (inside : Bool) : Body → Prop
  | .nil => True
  | .cons stmt _ rest =>
    (inside = true → stmt.Encloses node → ¬ rest.States node) ∧ stmt.GroupsLast ∧ rest.GroupsLast inside

def Stmt.GroupsLast : Stmt → Prop
  | .group group => group.GroupsLast
  | .defaults .. | .assign .. | .node .. | .edge .. => True
end

end

/-! ## What is said and what is handed over -/

section
variable {node : String}

mutual
theorem Group.replayed_eq_nil : ∀ {group : Group} (scopes : Scopes), node ∉ group.declared →
    group.replayed node scopes = []
  | .braced _ body, scopes, h => by
    obtain ⟨hown, hinner⟩ := Body.own_eq_nil scopes.push h
    rw [Group.replayed, hown, hinner]
    rfl
  | .reference _, _, _ => rfl

theorem Body.own_eq_nil : ∀ {body : Body} (scopes : Scopes), node ∉ body.declared →
    body.own node scopes = [] ∧ body.inner node scopes = []
  | .nil, _, _ => ⟨rfl, rfl⟩
  | .cons stmt _ rest, scopes, h => by
    rw [Body.declared, List.mem_append, not_or] at h
    obtain ⟨hown, hinner⟩ := Stmt.own_eq_nil scopes h.1
    obtain ⟨hown', hinner'⟩ := Body.own_eq_nil (stmt.scopes scopes) h.2
    rw [Body.own, Body.inner, hown, hinner, hown', hinner']
    exact ⟨rfl, rfl⟩

theorem Stmt.own_eq_nil : ∀ {stmt : Stmt} (scopes : Scopes), node ∉ stmt.declared →
    stmt.own node scopes = [] ∧ stmt.inner node scopes = []
  | .node _ _, _, h => ⟨if_neg fun hn => h (List.mem_singleton.2 hn.symm), rfl⟩
  | .group _, scopes, h => ⟨Group.replayed_eq_nil scopes h, Group.replayed_eq_nil scopes h⟩
  | .defaults .., _, _ => ⟨rfl, rfl⟩
  | .assign .., _, _ => ⟨rfl, rfl⟩
  | .edge .., _, _ => ⟨rfl, rfl⟩
end

theorem Stmt.own_eq_inner {stmt : Stmt} (scopes : Scopes) (h : ¬ stmt.States node) :
    stmt.own node scopes = stmt.inner node scopes := by
  cases stmt with
  | node id attrs => exact if_neg h
  | _ => rfl

theorem Body.own_eq_inner : ∀ {body : Body} (scopes : Scopes), ¬ body.States node →
    body.own node scopes = body.inner node scopes
  | .nil, _, _ => rfl
  | .cons stmt _ rest, scopes, h => by
    rw [Body.States, not_or] at h
    rw [Body.own, Body.inner, Stmt.own_eq_inner scopes h.1, Body.own_eq_inner _ h.2]

/-- The copies below add nothing if the groups of a body stand last. -/
theorem Body.merge_inner : ∀ {body : Body} (scopes : Scopes), body.GroupsLast node true →
    (mergeAll (body.own node scopes)).merge (mergeAll (body.inner node scopes)) = mergeAll (body.own node scopes)
  | .nil, _, _ => rfl
  | .cons stmt _ rest, scopes, h => by
    have hrest := Body.merge_inner (stmt.scopes scopes) h.2.2
    rw [Body.own, Body.inner]
    by_cases he : stmt.Encloses node
    · have hstmt : ¬ stmt.States node := by
        cases stmt with
        | node id attrs => exact absurd he not_false
        | _ => exact not_false
      -- What is below is then the very same, and to merge it again changes nothing.
      rw [Stmt.own_eq_inner scopes hstmt, Body.own_eq_inner _ (h.1 rfl he), merge_self (nodup_names_mergeAll _)]
    · have hnone : stmt.inner node scopes = [] := by
        cases stmt with
        | group group => exact Group.replayed_eq_nil scopes he
        | _ => rfl
      rw [hnone, List.nil_append, mergeAll_append, merge_assoc (nodup_names_mergeAll _), hrest]

mutual
theorem Group.mergeAll_replayed : ∀ {group : Group} (scopes : Scopes), group.GroupsLast node →
    mergeAll (group.replayed node scopes) = mergeAll (group.said node scopes)
  | .braced _ body, scopes, h => by
    rw [Group.replayed, mergeAll_append, Body.merge_inner scopes.push h, Body.mergeAll_own scopes.push h, Group.said]
  | .reference _, _, _ => rfl

/-- If groups stand last, what comes together in a body is what is said in it. -/
theorem Body.mergeAll_own : ∀ {inside : Bool} {body : Body} (scopes : Scopes), body.GroupsLast node inside →
    mergeAll (body.own node scopes) = mergeAll (body.said node scopes)
  | _, .nil, _, _ => rfl
  | _, .cons stmt _ rest, scopes, h => by
    rw [Body.own, Body.said, mergeAll_append, mergeAll_append, Stmt.mergeAll_own scopes h.2.1,
      Body.mergeAll_own _ h.2.2]

theorem Stmt.mergeAll_own : ∀ {stmt : Stmt} (scopes : Scopes), stmt.GroupsLast node →
    mergeAll (stmt.own node scopes) = mergeAll (stmt.said node scopes)
  | .node _ _, _, _ => rfl
  | .group _, scopes, h => Group.mergeAll_replayed scopes h
  | .defaults .., _, _ => rfl
  | .assign .., _, _ => rfl
  | .edge .., _, _ => rfl
end

/-! ## Running -/

/-- What holds of a builder in front of every statement: the names in use were read before. -/
structure Ready (seen : List String) (builder : Builder) : Prop where
  sound : Sound builder
  built : builder.Built fun _ => True
  known : ∀ name, builder.isKnown name = true → name ∈ seen

section
variable {seen : List String} {builder : Builder}

theorem Ready.opened (h : Ready seen builder) (name : String) : Ready (name :: seen) (builder.openSubgraph name) where
  sound := h.sound.opened name
  built := h.built.steps (.single (.opening builder name))
  known other hk := by
    rcases isKnown_openSubgraph hk with hk | rfl
    · exact List.mem_cons_of_mem _ (h.known other hk)
    · exact List.mem_cons_self ..

theorem Ready.stmt (h : Ready seen builder) (stmt : Stmt) : Ready (seen ++ stmt.headings) (stmt.run builder) where
  sound := sound_stmt h.sound stmt
  built := h.built.steps (stmt.steps builder Stmt.nodup_attributes)
  known name hk := by
    rw [List.mem_append]
    exact ((stmt.extends_run h.sound fun _ hn => hn).isKnown hk).imp_left (h.known name)

/-- When a body ends whose name was not read before, the name is not in use around it. -/
theorem Ready.unknown (h : Ready seen builder) {head : String} {body : Body} {sub : Subgraph} {outer : List Subgraph}
    (hb : (body.run (builder.openSubgraph head)).bodies = sub :: outer)
    (hn : head = "" ∨ head ∉ seen ++ body.headings) :
    Builder.isKnown { (body.run (builder.openSubgraph head)).leaveScope with bodies := outer } sub.name = false := by
  have hopen := h.sound.opened head
  obtain ⟨sub', outer', hb', hname, -, hext⟩ := (body.extends_run hopen fun _ hm => hm).opened
  obtain ⟨rfl, rfl⟩ := List.cons.inj (hb.symm.trans hb')
  rw [hname, Bool.eq_false_iff]
  intro hk
  rcases hn with rfl | hn
  · exact (isKnown_iff.1 hk).1 rfl
  · apply hn
    rw [List.mem_append]
    exact (hext.isKnown hk).imp_left (h.known head)

mutual
theorem Group.gains_run : ∀ (group : Group) {builder : Builder} {inside : Bool} {seen : List String}, Ready seen builder →
    (builder.bodies ≠ [] → inside = true) → group.EdgeFree → group.OpensNew node inside seen →
      Gains node (group.replayed node builder.scopes) (group.replayed node builder.scopes) builder (group.run builder).2
  | .braced head body, builder, inside, seen, h, hi, he, hnew => by
    have hbody := body.gains_run (h.opened head.name) (fun _ => rfl) he hnew.2
    have hbuilt := (h.opened head.name).built.steps (body.steps _ Body.nodup_attributes)
    cases hbody with
    | root ha => cases ha
    | @body opened sub bodies outer ha hb hroot hhead houter =>
      obtain ⟨rfl, rfl⟩ := List.cons.inj ha
      -- The body was empty when it was opened, so it has what its statements brought.
      have hvalues : mergeAll (sub.values node) = mergeAll (Group.replayed node builder.scopes (.braced head body)) :=
        hhead.values_of_new
      have hleft : Gains node [] [] builder { (body.run (builder.openSubgraph head.name)).leaveScope with bodies := outer } :=
        .of_none hroot houter
      rw [Group.run, closeSubgraph_of_cons hb]
      by_cases hd : node ∈ body.declared
      · have hnodup : ∀ value ∈ sub.values node, value.names.Nodup :=
          (hbuilt.bodies sub (hb ▸ List.mem_cons_self ..)).nodup_values
        refine (hleft.trans (gains_attach hnodup ?_)).congr hvalues.symm hvalues.symm
        by_cases ho : builder.bodies = []
        · rw [ho] at houter
          cases houter
          exact Or.inl rfl
        · exact Or.inr (h.unknown hb (hnew.1 (hi ho) hd))
      · -- A group that does not declare the node may have any name, for it has nothing to hand over.
        have hnone : Group.replayed node builder.scopes (.braced head body) = [] := Group.replayed_eq_nil _ hd
        rw [hnone] at hvalues ⊢
        have hsilent : Silent node sub := mergeAll_eq_empty.1 hvalues
        have hlast := sound_body (h.sound.opened head.name) body
        exact hleft.trans (hsilent.attached (hlast.distinct.reopen hb) (attach_cases ..))
  | .reference id, builder, _, _, h, _, _, _ => by
    rw [Group.run]
    rcases referToSubgraph_cases builder id.text with hr | ⟨attrs, hr⟩
    · rw [hr]
      exact .refl builder
    · rw [hr]
      exact (silent_new id.text attrs).attached (h.sound.distinct.push id.text attrs) (attach_cases ..)

/-- A body brings to the current one what comes together in it. -/
theorem Body.gains_run : ∀ (body : Body) {builder : Builder} {inside : Bool} {seen : List String}, Ready seen builder →
    (builder.bodies ≠ [] → inside = true) → body.EdgeFree → body.OpensNew node inside seen →
      Gains node (body.own node builder.scopes) (body.inner node builder.scopes) builder (body.run builder)
  | .nil, builder, _, _, _, _, _, _ => .refl builder
  | .cons stmt _ rest, builder, inside, seen, h, hi, he, hnew => by
    have hopen : (stmt.run builder).bodies ≠ [] → inside = true := by
      intro hne
      apply hi
      intro hnil
      apply hne
      rw [← List.length_eq_zero_iff, stmt.length_run, hnil]
      rfl
    have hrest := rest.gains_run (h.stmt stmt) hopen he.2 hnew.2
    rw [stmt.scopes_run] at hrest
    exact (stmt.gains_run h hi he.1 hnew.1).trans hrest

theorem Stmt.gains_run : ∀ (stmt : Stmt) {builder : Builder} {inside : Bool} {seen : List String}, Ready seen builder →
    (builder.bodies ≠ [] → inside = true) → stmt.EdgeFree → stmt.OpensNew node inside seen →
      Gains node (stmt.own node builder.scopes) (stmt.inner node builder.scopes) builder (stmt.run builder)
  | .defaults category _ _, builder, _, _, _, _, _, _ => gains_setDefaults builder category _
  | .assign _ _, builder, _, _, _, _, _, _ => gains_assign builder _
  | .node id attrs, builder, _, _, _, _, _, _ => gains_declareNode builder id.endpoint.node (attributesOf attrs)
  | .group group, _, _, _, h, hi, he, hnew => group.gains_run h hi he hnew
  | .edge .., _, _, _, _, _, he, _ => he.elim
end

end

/-! ## Whole documents -/

mutual
theorem Group.chains_eq_nil : ∀ {group : Group} (builder : Builder), group.EdgeFree → group.chains builder = []
  | .braced _ _, _, h => Body.chains_eq_nil _ h
  | .reference _, _, _ => rfl

theorem Body.chains_eq_nil : ∀ {body : Body} (builder : Builder), body.EdgeFree → body.chains builder = []
  | .nil, _, _ => rfl
  | .cons _ _ _, builder, h => by
    rw [Body.chains, Stmt.chains_eq_nil builder h.1, Body.chains_eq_nil _ h.2]
    rfl

theorem Stmt.chains_eq_nil : ∀ {stmt : Stmt} (builder : Builder), stmt.EdgeFree → stmt.chains builder = []
  | .group _, builder, h => Group.chains_eq_nil builder h
  | .defaults .., _, _ => rfl
  | .assign .., _, _ => rfl
  | .node .., _, _ => rfl
  | .edge .., _, h => h.elim
end

/-- The scope of the outermost body, without defaults. -/
def startScopes : Scopes := Scopes.push {}

section
variable (node : String)

def Document.EdgeFree (doc : Document) : Prop := doc.body.EdgeFree

def Document.said (doc : Document) : List Attributes := doc.body.said node startScopes

def Document.replayed (doc : Document) : List Attributes := doc.body.own node startScopes

def Document.OpensNew (doc : Document) : Prop := doc.body.OpensNew node false []

def Document.GroupsLast (doc : Document) : Prop := doc.body.GroupsLast node false

end

theorem Document.attrsOf_graph {doc : Document} (he : doc.EdgeFree) (hnew : doc.OpensNew node) :
    doc.graph.nodes.attrsOf node = mergeAll (doc.replayed node) := by
  have hstart : Ready [] (Builder.new (nameText doc.name) doc.kind).enterScope := by
    refine ⟨sound_new .., built_start .., fun name hk => ?_⟩
    rcases (isKnown_iff.1 hk).2 with hn | ⟨body, hb, -⟩
    · exact absurd hn List.not_mem_nil
    · exact absurd hb List.not_mem_nil
  cases doc.body.gains_run hstart (fun hne => absurd rfl hne) he hnew with
  | root _ _ h => exact h.trans (empty_merge (nodup_names_mergeAll _))
  | body ha => cases ha

theorem Document.attributes_graph {doc : Document} (he : doc.EdgeFree) (hnew : doc.OpensNew node) :
    (doc.graph.nodes.get? node).map Node.attributes =
      if node ∈ doc.declared then some (mergeAll (doc.replayed node)) else none := by
  have hchains : doc.chains = [] := Body.chains_eq_nil _ he
  have hmem : node ∈ doc.graph.nodes.names ↔ node ∈ doc.declared := by
    rw [doc.mem_nodes_graph, hchains]
    simp [Brings]
  rw [NodeMap.map_attributes_get?, Document.attrsOf_graph he hnew]
  simp only [hmem]

/-- What a node ends up with in a document without edges, if the groups in groups that declare it have new
names: what is replayed, which comes to what the statements say in the order of the text if no statement
stands behind a group in a group. -/
theorem attributes_without_edges {doc : Document} {text : String} (hr : doc.Reads text) (he : doc.EdgeFree) :
    ∃ graph, parse text = .ok graph ∧ ∀ node, doc.OpensNew node →
      (graph.nodes.get? node).map Node.attributes =
          (if node ∈ doc.declared then some (mergeAll (doc.replayed node)) else none) ∧
        (doc.GroupsLast node → (graph.nodes.get? node).map Node.attributes =
          if node ∈ doc.declared then some (mergeAll (doc.said node)) else none) := by
  refine ⟨doc.graph, hr.parse, fun node hnew => ?_⟩
  have hreplayed := Document.attributes_graph he hnew
  refine ⟨hreplayed, fun hlast => ?_⟩
  have hsaid : mergeAll (doc.replayed node) = mergeAll (doc.said node) := Body.mergeAll_own startScopes hlast
  rw [hreplayed, hsaid]

end

def assignX (value : String) : List (List Assignment) := [[⟨.word "x", .numeral value, .absent⟩]]

/-- Statements for one node: with a default, in a group, in a group in that, and behind both. -/
def layeredText : String := "graph \x7b node [x=0] subgraph s \x7b a subgraph t \x7b a [x=1] \x7d \x7d a [x=2] \x7d"

def layeredDocument : Document where
  strict := false
  directed := false
  name := none
  body :=
    .cons (.defaults .node [⟨.word "x", .numeral "0", .absent⟩] []) false <|
    .cons (.group (.braced (.keyword (some (.word "s")))
      (.cons (.node ⟨.word "a", .absent⟩ []) false <|
        .cons (.group (.braced (.keyword (some (.word "t")))
          (.cons (.node ⟨.word "a", .absent⟩ (assignX "1")) false .nil))) false .nil))) false <|
    .cons (.node ⟨.word "a", .absent⟩ (assignX "2")) false .nil

/-- A statement for a node behind a group that declares it, both in a group. -/
def replayedText : String := "graph \x7b \x7b \x7b a [x=1] \x7d a [x=2] \x7d \x7d"

def replayedDocument : Document where
  strict := false
  directed := false
  name := none
  body :=
    .cons (.group (.braced .absent
      (.cons (.group (.braced .absent (.cons (.node ⟨.word "a", .absent⟩ (assignX "1")) false .nil))) false <|
        .cons (.node ⟨.word "a", .absent⟩ (assignX "2")) false .nil))) false .nil

theorem canName_x : (Id.word "x").CanName := by
  unfold Id.CanName
  decide

theorem layeredDocument_reads : layeredDocument.Reads layeredText where
  greedy := by
    simp [layeredDocument, Document.Greedy, Body.Greedy, Stmt.Greedy, Group.Greedy, Body.Apart, Stmt.isOpen, Group.isOpen]
  admissible := by
    simp [layeredDocument, assignX, Document.Admissible, Body.Admissible, Stmt.Admissible, Group.Admissible, AttrsCanName,
      maxNesting, canName_x]
  tokens := by
    rw [layeredText, Lexer.ofString_ofList]
    decide +kernel

theorem replayedDocument_reads : replayedDocument.Reads replayedText where
  greedy := by
    simp [replayedDocument, Document.Greedy, Body.Greedy, Stmt.Greedy, Group.Greedy, Body.Apart, Stmt.isOpen, Group.isOpen]
  admissible := by
    simp [replayedDocument, assignX, Document.Admissible, Body.Admissible, Stmt.Admissible, Group.Admissible, AttrsCanName,
      maxNesting, canName_x]
  tokens := by
    rw [replayedText, Lexer.ofString_ofList]
    decide +kernel

theorem layeredDocument_edgeFree : layeredDocument.EdgeFree := by
  simp [layeredDocument, Document.EdgeFree, Body.EdgeFree, Stmt.EdgeFree, Group.EdgeFree]

theorem replayedDocument_edgeFree : replayedDocument.EdgeFree := by
  simp [replayedDocument, Document.EdgeFree, Body.EdgeFree, Stmt.EdgeFree, Group.EdgeFree]

theorem layeredDocument_opensNew : layeredDocument.OpensNew "a" := by
  simp [layeredDocument, Document.OpensNew, Body.OpensNew, Stmt.OpensNew, Group.OpensNew, Body.headings, Stmt.headings,
    Group.headings, Head.name, nameText, Id.text, Id.ident, Ident.text]

theorem layeredDocument_groupsLast : layeredDocument.GroupsLast "a" := by
  simp [layeredDocument, Document.GroupsLast, Body.GroupsLast, Stmt.GroupsLast, Group.GroupsLast, Body.States,
    Stmt.States, Stmt.Encloses]

theorem attributes_layeredText : layeredDocument.Reads layeredText ∧ layeredDocument.EdgeFree ∧
    layeredDocument.OpensNew "a" ∧ layeredDocument.GroupsLast "a" ∧
    ∃ graph, parse layeredText = .ok graph ∧ ∀ node, layeredDocument.OpensNew node →
      (graph.nodes.get? node).map Node.attributes =
          (if node ∈ layeredDocument.declared then some (mergeAll (layeredDocument.replayed node)) else none) ∧
        (layeredDocument.GroupsLast node → (graph.nodes.get? node).map Node.attributes =
          if node ∈ layeredDocument.declared then some (mergeAll (layeredDocument.said node)) else none) :=
  ⟨layeredDocument_reads, layeredDocument_edgeFree, layeredDocument_opensNew, layeredDocument_groupsLast,
    attributes_without_edges layeredDocument_reads layeredDocument_edgeFree⟩

/-- The last statement for the node sets another value than the node has in the end. -/
theorem overridden_by_replay : ∃ graph, parse replayedText = .ok graph ∧ replayedDocument.EdgeFree ∧
    (graph.nodes.get? "a").map Node.attributes ≠ some (mergeAll (replayedDocument.said "a")) := by
  -- No group has a name.
  have hnew : replayedDocument.OpensNew "a" :=
    ⟨⟨nofun, ⟨fun _ _ => Or.inl rfl, trivial, trivial⟩, trivial, trivial⟩, trivial⟩
  refine ⟨replayedDocument.graph, Document.Reads.parse replayedDocument_reads, replayedDocument_edgeFree, ?_⟩
  rw [Document.attributes_graph replayedDocument_edgeFree hnew]
  decide

end DotLang.Grammar
