import DotLang.Proofs.Grammar.Tree
import DotLang.Proofs.Writing.Scanning

/-!
# The document that is written

The derivation tree of what a graph is written as, piece by piece as the writer goes, and that its text
scans as its tokens. Here names have to be `Readable`, and so do values; all else comes out right whatever
the graph is.
-/

namespace DotLang
open Grammar

/-! ## What can be written -/

/-- A value that is read back as it is. -/
def AttrValue.Readable : AttrValue → Prop
  | .string text => DotLang.Readable text
  | .markup text => Markup.Sound text

instance : ∀ value : AttrValue, Decidable value.Readable
  | .string text => inferInstanceAs (Decidable (DotLang.Readable text))
  | .markup text => inferInstanceAs (Decidable (Markup.Sound text))

/-- An attribute that is read back as it is. -/
structure Attribute.Readable (attr : Attribute) : Prop where
  ne_empty : attr.name ≠ ""
  name : DotLang.Readable attr.name
  value : attr.value.Readable

instance (attr : Attribute) : Decidable attr.Readable :=
  decidable_of_iff (attr.name ≠ "" ∧ DotLang.Readable attr.name ∧ attr.value.Readable)
    ⟨fun h => ⟨h.1, h.2.1, h.2.2⟩, fun h => ⟨h.ne_empty, h.name, h.value⟩⟩

structure Endpoint.Readable (endpoint : Endpoint) : Prop where
  node : DotLang.Readable endpoint.node
  port : ∀ port ∈ endpoint.port, DotLang.Readable port

instance (endpoint : Endpoint) : Decidable endpoint.Readable :=
  decidable_of_iff (DotLang.Readable endpoint.node ∧ ∀ port ∈ endpoint.port, DotLang.Readable port)
    ⟨fun h => ⟨h.1, h.2⟩, fun h => ⟨h.node, h.port⟩⟩

/-! ## The tree of a graph -/

def quotedId (text : String) : Id := .strings text []

def nameId (name : String) : Option Id := if name.isEmpty then none else some (quotedId name)

def attributeId (name : String) : Id := if isBareName name then .word name else quotedId name

def AttrValue.id : AttrValue → Id
  | .string text => quotedId text
  | .markup text => .html text

def Attributes.statements (attrs : Attributes) : List (Stmt × Bool) :=
  attrs.entries.map fun attr => (.assign (attributeId attr.name) attr.value.id, true)

def Attributes.assignments (attrs : Attributes) : List Assignment :=
  attrs.entries.map fun attr => ⟨attributeId attr.name, attr.value.id, .semicolon⟩

def Attributes.brackets (attrs : Attributes) : List (List Assignment) :=
  if attrs.isEmpty then [] else [attrs.assignments]

/-- A node, with its attributes in the root only. -/
def Node.statement (inSubgraph : Bool) (node : Node) : Stmt × Bool :=
  (.node ⟨quotedId node.name, .absent⟩ (if inSubgraph then ∅ else node.attributes).brackets, true)

/-- What is written behind the node of an endpoint. -/
def Endpoint.written? (endpoint : Endpoint) : Port :=
  match endpoint.port, endpoint.compass with
  | none, none => .absent
  | none, some compass => .alone (.word compass.name)
  | some port, some compass => .sided (quotedId port) compass
  | some port, none => if (Compass.ofName? port).isSome then .sided (quotedId port) .any else .alone (quotedId port)

def Endpoint.nodeId (endpoint : Endpoint) : NodeId := ⟨quotedId endpoint.node, endpoint.written?⟩

def Edge.statement (directed : Bool) (edge : Edge) : Stmt × Bool :=
  (.edge (.node edge.source.nodeId) directed (.node edge.destination.nodeId) .nil edge.attributes.brackets, true)

/-- The body that has the statements of a list, each with a semicolon or not. -/
def Grammar.Body.ofList : List (Stmt × Bool) → Body
  | [] => .nil
  | (stmt, semicolon) :: rest => .cons stmt semicolon (ofList rest)

mutual
def Subgraph.statements (inSubgraph : Bool) : Subgraph → List (Stmt × Bool)
  | ⟨_, attrs, nodes, children⟩ =>
    attrs.statements ++ nodes.toList.map (Node.statement inSubgraph)
      ++ Subgraph.groupStatements children

def Subgraph.groupStatements : List Subgraph → List (Stmt × Bool)
  | [] => []
  | child :: rest =>
    (.group (.braced (.keyword (nameId child.name)) (.ofList (child.statements true))), false)
      :: Subgraph.groupStatements rest
end

def Graph.document (graph : Graph) : Document where
  strict := graph.kind.strict
  directed := graph.kind.directed
  name := nameId graph.name
  body := .ofList (graph.body.statements false ++ graph.edges.map (Edge.statement graph.kind.directed))

/-- The tokens of statements, each with its semicolon. -/
def statementTokens (statements : List (Stmt × Bool)) : List Token :=
  statements.flatMap fun (stmt, semicolon) => stmt.tokens ++ semicolonTokens semicolon

theorem Grammar.Body.tokens_ofList : ∀ statements : List (Stmt × Bool),
    (Body.ofList statements).tokens = statementTokens statements
  | [] => rfl
  | (stmt, semicolon) :: rest => by
    rw [Body.ofList, Body.tokens, Body.tokens_ofList rest, ← List.append_assoc]
    rfl

theorem statementTokens_append (a b : List (Stmt × Bool)) :
    statementTokens (a ++ b) = statementTokens a ++ statementTokens b :=
  List.flatMap_append

/-! ## Lines -/

/-- Lines that scan as tokens wherever they stand. -/
def LinesScan (lines : List Line) (ts : List Token) : Prop := ∀ rest, Scans (lines.flatMap Line.chars) ts rest

theorem linesScan_nil : LinesScan [] [] := scans_nil

theorem LinesScan.append {a b : List Line} {ts us : List Token} (ha : LinesScan a ts) (hb : LinesScan b us) :
    LinesScan (a ++ b) (ts ++ us) := by
  intro rest
  rw [List.flatMap_append]
  exact (ha _).append (hb rest)

theorem linesScan_line {depth : Nat} {text : String} {ts : List Token}
    (h : ∀ rest, Scans text.toList ts ('\n' :: rest)) : LinesScan [⟨depth, text⟩] ts := by
  intro rest
  have hline := ((scans_spaces (4 * depth) _).append (h rest)).append (scans_newline rest)
  simpa [Line.chars] using hline

theorem LinesScan.cons (depth : Nat) {text : String} {lines : List Line} {ts us : List Token}
    (h : ∀ rest, Scans text.toList ts ('\n' :: rest)) (hl : LinesScan lines us) :
    LinesScan (⟨depth, text⟩ :: lines) (ts ++ us) :=
  (linesScan_line h).append hl

/-- Lines that are made one for each entry of a list. -/
theorem linesScan_flatMap {α : Type} {f : α → List Line} {g : α → List Token} :
    ∀ {entries : List α}, (∀ entry ∈ entries, LinesScan (f entry) (g entry)) →
      LinesScan (entries.flatMap f) (entries.flatMap g)
  | [], _ => linesScan_nil
  | entry :: rest, h => by
    rw [List.forall_mem_cons] at h
    exact h.1.append (linesScan_flatMap h.2)

/-! ## Attributes -/

theorem delimits_of {c : Char} (h : isNameChar c = false) (rest : List Char) : Delimits (c :: rest) := by
  intro d hd
  rw [List.head?_cons, Option.mem_some_iff] at hd
  exact hd ▸ h

theorem scans_attributeName {name : String} (h : Readable name) (rest : List Char) (hr : Delimits rest) :
    Scans (writeAttributeName name).toList (attributeId name).tokens rest := by
  unfold writeAttributeName attributeId
  split
  · rename_i hbare
    unfold isBareName at hbare
    split at hbare
    · cases hbare
    · rename_i c word hw
      simp only [Bool.and_eq_true, Bool.or_eq_true, decide_eq_true_eq, Option.isNone_iff_eq_none] at hbare
      obtain ⟨⟨hc, hword⟩, hk⟩ := hbare
      have hstart : isNameStart c = true := by
        unfold isNameStart
        rcases hc with hc | hc <;> simp [hc]
      have hall : word.all isNameChar = true := by
        rw [List.all_eq_true] at hword ⊢
        intro d hd
        have hd := hword d hd
        unfold isNameChar isNameStart
        simp only [Char.isAlphanum, Bool.or_eq_true, decide_eq_true_eq] at hd ⊢
        rcases hd with (hd | hd) | hd <;> simp [hd]
      have hscan := scans_word hstart hall hr
      rw [← hw, String.ofList_toList, Token.ofWord, hk] at hscan
      exact hscan
  · exact scans_quote h rest

theorem scans_value {value : AttrValue} (h : value.Readable) (rest : List Char) :
    Scans value.written.toList value.id.tokens rest := by
  cases value with
  | string text => exact scans_quote h rest
  | markup text => exact scans_markup h rest

theorem scans_attribute {attr : Attribute} (h : attr.Readable) (rest : List Char) :
    Scans attr.written.toList
      (Assignment.tokens ⟨attributeId attr.name, attr.value.id, .semicolon⟩) rest := by
  have hv : Scans (attr.value.written.toList ++ [';']) (attr.value.id.tokens ++ [.semicolon]) rest :=
    (scans_value h.value _).append (scans_sign rfl rest)
  have heq : Scans ('=' :: (attr.value.written.toList ++ [';'])) (.equal :: (attr.value.id.tokens ++ [.semicolon])) rest :=
    (scans_sign rfl _).append hv
  have hall := (scans_attributeName h.name _ (delimits_of (by decide) _)).append heq
  simpa [Attribute.written, Assignment.tokens, Separator.tokens] using hall

theorem linesScan_attributes {attrs : Attributes} (h : ∀ attr ∈ attrs.entries, attr.Readable) (depth : Nat) :
    LinesScan (attrs.lines depth) (attrs.assignments.flatMap Assignment.tokens) := by
  unfold Attributes.lines Attributes.assignments
  rw [List.flatMap_map, ← List.flatMap_singleton' (attrs.entries.map _), List.flatMap_map]
  exact linesScan_flatMap fun attr ha => linesScan_line fun rest => scans_attribute (h attr ha) _

theorem statementTokens_attributes (attrs : Attributes) :
    statementTokens attrs.statements = attrs.assignments.flatMap Assignment.tokens := by
  unfold statementTokens Attributes.statements Attributes.assignments
  rw [List.flatMap_map, List.flatMap_map]
  simp [Stmt.tokens, Assignment.tokens, Separator.tokens, semicolonTokens]

/-! ## Entries -/

theorem linesScan_entry {depth : Nat} {head : String} {ts : List Token} {attrs : Attributes}
    (hhead : ∀ rest, Delimits rest → Scans head.toList ts rest) (ha : ∀ attr ∈ attrs.entries, attr.Readable) :
    LinesScan (entryLines depth head attrs) (ts ++ (attrTokens attrs.brackets ++ [.semicolon])) := by
  unfold entryLines Attributes.brackets
  split
  · refine linesScan_line fun rest => ?_
    rw [String.toList_append]
    exact (hhead _ (delimits_of (by decide) _)).append (scans_sign rfl _)
  · have hopen : ∀ rest, Scans (head ++ " [").toList (ts ++ [.openBracket]) ('\n' :: rest) := by
      intro rest
      rw [String.toList_append]
      exact (hhead _ (delimits_of (by decide) _)).append ((scans_space _).append (scans_sign rfl _))
    have hclose : LinesScan [⟨depth, "];"⟩] [.closeBracket, .semicolon] :=
      linesScan_line fun rest => (scans_sign rfl _).append (scans_sign rfl _)
    have hall := LinesScan.cons depth hopen ((linesScan_attributes ha (depth + 1)).append hclose)
    simpa [attrTokens, bracketTokens] using hall

theorem linesScan_node {node : Node} {setting : Setting} (hn : Readable node.name)
    (ha : setting.inSubgraph = false → ∀ attr ∈ node.attributes.entries, attr.Readable) (depth : Nat) :
    LinesScan (node.lines depth setting) (statementTokens [node.statement setting.inSubgraph]) := by
  have hlines : LinesScan (node.lines depth setting)
      ([.quoted node.name] ++ (attrTokens (if setting.inSubgraph then ∅ else node.attributes).brackets ++
        [.semicolon])) := by
    refine linesScan_entry (fun rest _ => scans_quote hn rest) fun attr hm => ?_
    cases hs : setting.inSubgraph with
    | true =>
      rw [hs] at hm
      cases hm
    | false =>
      rw [hs] at hm
      exact ha hs attr hm
  simpa [statementTokens, Node.statement, Stmt.tokens, NodeId.tokens, quotedId, Id.tokens, Port.tokens,
    semicolonTokens] using hlines

/-! ## Edges -/

theorem compassName_scans (compass : Compass) (rest : List Char) (hr : Delimits rest) :
    Scans compass.name.toList [.identifier compass.name] rest := by
  cases compass <;> exact scans_word (by decide) (by decide) hr

theorem scans_port {port : String} (h : Readable port) (rest : List Char) :
    Scans (":" ++ quote port).toList [.colon, .quoted port] rest := by
  rw [String.toList_append]
  exact (scans_sign rfl _).append (scans_quote h rest)

theorem scans_side (compass : Compass) (rest : List Char) (hr : Delimits rest) :
    Scans (":" ++ compass.name).toList [.colon, .identifier compass.name] rest := by
  rw [String.toList_append]
  exact (scans_sign rfl _).append (compassName_scans compass rest hr)

theorem scans_endpoint {endpoint : Endpoint} (h : endpoint.Readable) (rest : List Char) (hr : Delimits rest) :
    Scans endpoint.written.toList endpoint.nodeId.tokens rest := by
  have hempty (rest : List Char) : Scans ("" : String).toList [] rest := scans_nil rest
  -- The node, then the port and the side as they are there.
  have hall {port side : String} {ts us : List Token} (hp : ∀ rest, Scans port.toList ts rest)
      (hs : Scans side.toList us rest) :
      Scans (quote endpoint.node ++ port ++ side).toList (.quoted endpoint.node :: (ts ++ us)) rest := by
    rw [String.toList_append, String.toList_append, List.append_assoc]
    exact (scans_quote h.node _).append ((hp _).append hs)
  unfold Endpoint.written Endpoint.nodeId Endpoint.written?
  cases hport : endpoint.port with
  | none =>
    cases endpoint.compass with
    | none => exact hall hempty (hempty rest)
    | some compass => exact hall hempty (scans_side compass rest hr)
  | some port =>
    have hp := scans_port (h.port port hport)
    cases endpoint.compass with
    | some compass =>
      have hscan := hall hp (scans_side compass rest hr)
      exact hscan
    | none =>
      dsimp only
      split
      · have hscan := hall hp (scans_side .any rest hr)
        exact hscan
      · have hscan := hall hp (hempty rest)
        exact hscan

theorem linesScan_edge {edge : Edge} {setting : Setting} (hs : edge.source.Readable) (hd : edge.destination.Readable)
    (ha : ∀ attr ∈ edge.attributes.entries, attr.Readable) (depth : Nat) :
    LinesScan (edge.lines depth setting) (statementTokens [edge.statement setting.directed]) := by
  have hhead (rest : List Char) (hr : Delimits rest) :
      Scans (edge.source.written ++ " " ++ (if setting.directed then "->" else "--") ++ " " ++
        edge.destination.written).toList
        (edge.source.nodeId.tokens ++ (.edgeOp setting.directed :: edge.destination.nodeId.tokens)) rest := by
    have hdestination := scans_endpoint hd rest hr
    have hop := (scans_space _).append ((scans_edgeOp setting.directed _).append ((scans_space _).append hdestination))
    generalize htail : [' '] ++ ((if setting.directed then "->" else "--").toList ++
      ([' '] ++ edge.destination.written.toList)) = tail at hop
    have hdelimits : Delimits (tail ++ rest) := by
      rw [← htail]
      exact delimits_of (by decide) _
    have hscan := (scans_endpoint hs _ hdelimits).append hop
    rw [← htail] at hscan
    simpa [String.toList_append] using hscan
  have hlines : LinesScan (edge.lines depth setting) _ := linesScan_entry hhead ha
  simpa [statementTokens, Edge.statement, Stmt.tokens, Operand.tokens, Chain.tokens, semicolonTokens] using hlines

/-! ## Groups and graphs -/

theorem scans_name {name : String} (h : Readable name) (rest : List Char) :
    Scans (if name.isEmpty then "" else " " ++ quote name).toList (nameTokens (nameId name)) rest := by
  unfold nameId
  split
  · exact scans_nil rest
  · rw [String.toList_append]
    exact (scans_space _).append (scans_quote h rest)

theorem linesScan_braced {head : String} {body : List Line} {ts us : List Token}
    (hhead : ∀ rest, Delimits rest → Scans head.toList ts rest) (hbody : LinesScan body us) (depth : Nat) :
    LinesScan (bracedLines depth head body) (ts ++ .openBrace :: (us ++ [.closeBrace])) := by
  have hopen : ∀ rest, Scans (head ++ " \x7b").toList (ts ++ [.openBrace]) ('\n' :: rest) := by
    intro rest
    rw [String.toList_append]
    exact (hhead _ (delimits_of (by decide) _)).append ((scans_space _).append (scans_sign rfl _))
  have hclose : LinesScan [⟨depth, "\x7d"⟩] [.closeBrace] := linesScan_line fun rest => scans_sign rfl _
  have hall := LinesScan.cons depth hopen (hbody.append hclose)
  simpa [bracedLines] using hall

theorem delimits_nameChars {name : String} (rest : List Char) (hr : Delimits rest) :
    Delimits ((if name.isEmpty then "" else " " ++ quote name).toList ++ rest) := by
  split
  · exact hr
  · rw [String.toList_append]
    show Delimits (' ' :: ((quote name).toList ++ rest))
    exact delimits_of (by decide) _

theorem scans_header {keyword name : String} {ts : List Token} (h : Readable name)
    (hk : ∀ rest, Delimits rest → Scans keyword.toList ts rest) (rest : List Char) (hr : Delimits rest) :
    Scans (if name.isEmpty then keyword else keyword ++ " " ++ quote name).toList (ts ++ nameTokens (nameId name))
      rest := by
  have hscan := (hk _ (delimits_nameChars rest hr)).append (scans_name h rest)
  cases hn : name.isEmpty with
  | true => simpa [hn] using hscan
  | false => simpa [hn, String.append_assoc, String.toList_append] using hscan

theorem scans_subgraphKeyword (rest : List Char) (hr : Delimits rest) :
    Scans ("subgraph" : String).toList [.keyword .subgraph] rest :=
  scans_word (by decide) (by decide) hr

theorem scans_kind (kind : GraphKind) (rest : List Char) (hr : Delimits rest) :
    Scans (toString kind).toList
      ((if kind.strict then [.keyword .strict] else []) ++ [.keyword (if kind.directed then .digraph else .graph)])
      rest := by
  have hkeyword : Scans kind.keyword.toList [.keyword (if kind.directed then .digraph else .graph)] rest := by
    unfold GraphKind.keyword
    cases kind.directed
    · exact scans_word (by decide) (by decide) hr
    · exact scans_word (by decide) (by decide) hr
  show Scans (if kind.strict then "strict " ++ kind.keyword else kind.keyword).toList _ _
  cases kind.strict with
  | false => exact hkeyword
  | true =>
    have hstrict (rest : List Char) : Scans ("strict" : String).toList [.keyword .strict] (' ' :: rest) :=
      scans_word (by decide) (by decide) (delimits_of (by decide) rest)
    rw [if_pos rfl, String.toList_append]
    exact ((hstrict _).append (scans_space _)).append hkeyword

/-- What is written of a group can be read back: of its attributes and nodes, and of the groups below. -/
structure Subgraph.Legible (sub : Subgraph) : Prop where
  name : Readable sub.name
  attributes : ∀ attr ∈ sub.attributes.entries, attr.Readable
  nodes : ∀ node ∈ sub.nodes.toList, Readable node.name

instance (sub : Subgraph) : Decidable sub.Legible :=
  decidable_of_iff (Readable sub.name ∧ (∀ attr ∈ sub.attributes.entries, attr.Readable) ∧
    ∀ node ∈ sub.nodes.toList, Readable node.name)
    ⟨fun h => ⟨h.1, h.2.1, h.2.2⟩, fun h => ⟨h.name, h.attributes, h.nodes⟩⟩

theorem statementTokens_cons (stmt : Stmt) (semicolon : Bool) (rest : List (Stmt × Bool)) :
    statementTokens ((stmt, semicolon) :: rest) = stmt.tokens ++ (semicolonTokens semicolon ++ statementTokens rest) := by
  unfold statementTokens
  rw [List.flatMap_cons, List.append_assoc]

theorem statementTokens_map {α : Type} (f : α → Stmt × Bool) (entries : List α) :
    statementTokens (entries.map f) = entries.flatMap fun entry => statementTokens [f entry] := by
  unfold statementTokens
  rw [List.flatMap_map]
  simp

mutual
theorem linesScan_body (depth : Nat) (setting : Setting) : ∀ sub : Subgraph, (∀ group ∈ sub.hierarchy, group.Legible) →
    (setting.inSubgraph = false → ∀ node ∈ sub.nodes.toList, ∀ attr ∈ node.attributes.entries, attr.Readable) →
    LinesScan (sub.bodyLines depth setting) (statementTokens (sub.statements setting.inSubgraph))
  | ⟨name, attrs, nodes, children⟩, h, hroot => by
    have hown := h _ (Subgraph.self_mem_hierarchy _)
    have hnodes : LinesScan (nodes.toList.flatMap fun node => node.lines depth setting)
        (statementTokens (nodes.toList.map (Node.statement setting.inSubgraph))) := by
      rw [statementTokens_map]
      exact linesScan_flatMap fun node hn =>
        linesScan_node (hown.nodes node hn) (fun hs => hroot hs node hn) depth
    have hchildren := linesScan_children depth setting children fun group hg => h group (by
      rw [Subgraph.hierarchy_eq]
      exact List.mem_cons_of_mem _ hg)
    rw [Subgraph.bodyLines, Subgraph.statements, statementTokens_append, statementTokens_append,
      statementTokens_attributes]
    exact ((linesScan_attributes hown.attributes depth).append hnodes).append hchildren

theorem linesScan_children (depth : Nat) (setting : Setting) : ∀ subs : List Subgraph,
    (∀ group ∈ subs.flatMap Subgraph.hierarchy, group.Legible) →
    LinesScan (Subgraph.childLines depth { setting with inSubgraph := true } subs)
      (statementTokens (Subgraph.groupStatements subs))
  | [], _ => linesScan_nil
  | child :: rest, h => by
    rw [List.flatMap_cons, List.forall_mem_append] at h
    have hown := h.1 _ (Subgraph.self_mem_hierarchy _)
    have hbody := linesScan_body (depth + 1) { setting with inSubgraph := true } child h.1 nofun
    have hbraced := linesScan_braced (scans_header hown.name scans_subgraphKeyword) hbody depth
    rw [Subgraph.childLines, Subgraph.groupStatements, statementTokens_cons]
    have hall := hbraced.append (linesScan_children depth setting rest h.2)
    simpa [Stmt.tokens, Group.tokens, Head.tokens, Body.tokens_ofList, semicolonTokens, Subgraph.header] using hall
end

/-- What is written of a graph can be read back. -/
structure Graph.Legible (graph : Graph) : Prop where
  groups : ∀ group ∈ graph.body.hierarchy, group.Legible
  nodes : ∀ node ∈ graph.nodes.toList, ∀ attr ∈ node.attributes.entries, attr.Readable
  edges : ∀ edge ∈ graph.edges, edge.source.Readable ∧ edge.destination.Readable ∧
    ∀ attr ∈ edge.attributes.entries, attr.Readable

/-- The text of a graph is read as the tokens of its document. -/
theorem tokens_toDot {graph : Graph} (h : graph.Legible) :
    (Lexer.ofString graph.toDot).tokens = (graph.document.tokens ++ [Token.eof]).map .ok := by
  refine tokens_of_scans ?_
  have hname : Readable graph.name := (h.groups _ (Subgraph.self_mem_hierarchy _)).name
  have hbody := linesScan_body 1 ⟨graph.kind.directed, false⟩ graph.body h.groups fun _ => h.nodes
  have hedges : LinesScan (graph.edges.flatMap fun edge => edge.lines 1 ⟨graph.kind.directed, false⟩)
      (statementTokens (graph.edges.map (Edge.statement graph.kind.directed))) := by
    rw [statementTokens_map]
    refine linesScan_flatMap fun edge he => ?_
    obtain ⟨hs, hd, ha⟩ := h.edges edge he
    exact linesScan_edge hs hd ha 1
  have hhead (rest : List Char) (hr : Delimits rest) : Scans graph.header.toList _ rest :=
    scans_header hname (scans_kind graph.kind) rest hr
  have hall := linesScan_braced hhead (hbody.append hedges) 0 []
  rw [← statementTokens_append, ← Body.tokens_ofList] at hall
  rw [Graph.toDot, joinLines, String.toList_ofList]
  rw [List.append_assoc, List.append_assoc] at hall
  exact hall

end DotLang
