import DotLang.Parser.Document
import DotLang.Proofs.Builder.Steps
import DotLang.Proofs.Tokens

/-!
# Derivation trees

The grammar of documents, one type for each of its nonterminals, so that a value is a derivation and
`tokens` is what it derives.

    document : [strict] (graph | digraph) [id] '{' (stmt [';'])* '}'
    stmt     : (graph | node | edge) attrs | id '=' id | endpoint [attrs] | group
             | operand (op operand)+ [attrs]
    attrs    : ('[' (id '=' id [';' | ','])* ']')+
    operand  : endpoint | group
    endpoint : id [':' id [':' compass]]
    group    : [subgraph [id]] '{' (stmt [';'])* '}' | subgraph id
    id       : identifier | numeral | html | string ('+' string)*

The grammar is ambiguous: `subgraph x` may stand in front of a body that is not its own. What the grammar
itself does not say is in `Admissible`: edge operators of the right kind, names that attributes can have,
and the depth of bodies. A tree says what is to be done with a builder, too.
-/

namespace DotLang.Grammar

/-! ## IDs, attribute lists and endpoints -/

inductive Id
  | word (name : String)
  | numeral (text : String)
  | html (markup : String)
  | strings (first : String) (more : List String)
deriving Repr, DecidableEq

namespace Id

def tokens : Id → List Token
  | word name => [.identifier name]
  | numeral text => [.numeral text]
  | html markup => [.html markup]
  | strings first more => .quoted first :: more.flatMap fun text => [.plus, .quoted text]

def ident : Id → Ident
  | word text | numeral text => .plain text
  | html markup => .html markup
  | strings first more => .plain (more.foldl (· ++ ·) first)

def text (id : Id) : String := id.ident.text

def compass? : Id → Option Compass
  | word name => Compass.ofName? name
  | _ => none

/-- Whether an attribute can have the name. -/
def CanName (id : Id) : Prop := id.text ≠ "" ∧ isQuotable id.text = true

theorem readable_foldl {more : List String} {first : String} (hf : Readable first)
    (hm : ∀ text ∈ more, Readable text) : Readable (more.foldl (· ++ ·) first) := by
  induction more generalizing first with
  | nil => exact hf
  | cons text more ih =>
    rw [List.forall_mem_cons] at hm
    exact ih (hf.append hm.1) hm.2

/-- What an ID of plain tokens says is readable. -/
theorem readable_of_plain {id : Id} {text : String} (h : ∀ t ∈ id.tokens, t.Clean) (he : id.ident = .plain text) :
    Readable text := by
  cases id with
  | word name =>
    cases he
    exact h _ (List.mem_singleton_self _)
  | numeral digits =>
    cases he
    exact h _ (List.mem_singleton_self _)
  | html markup => cases he
  | strings first more =>
    cases he
    refine readable_foldl (h (.quoted first) (List.mem_cons_self ..)) fun text ht => ?_
    refine h (.quoted text) (List.mem_cons_of_mem _ (List.mem_flatMap.2 ⟨text, ht, ?_⟩))
    exact List.mem_cons_of_mem _ (List.mem_singleton_self _)

/-- What an ID gives as a value can be written. -/
theorem isWritable {id : Id} (h : ∀ t ∈ id.tokens, t.Clean) : id.ident.value.isWritable = true := by
  cases hi : id.ident with
  | plain text => exact (readable_of_plain h hi).quotable
  | html markup => rfl

end Id

/-- The name of a graph or a group, which may be missing. -/
def nameTokens : Option Id → List Token
  | none => []
  | some id => id.tokens

def nameText : Option Id → String
  | none => ""
  | some id => id.text

inductive Separator
  | absent
  | semicolon
  | comma
deriving Repr, DecidableEq

def Separator.tokens : Separator → List Token
  | absent => []
  | semicolon => [.semicolon]
  | comma => [.comma]

structure Assignment where
  name : Id
  value : Id
  separator : Separator
deriving Repr, DecidableEq

def Assignment.tokens (a : Assignment) : List Token :=
  a.name.tokens ++ .equal :: (a.value.tokens ++ a.separator.tokens)

def Assignment.attribute (a : Assignment) : Attribute := ⟨a.name.text, a.value.ident.value⟩

/-- A pair of brackets and what stands inside. -/
def bracketTokens (assignments : List Assignment) : List Token :=
  .openBracket :: (assignments.flatMap Assignment.tokens ++ [.closeBracket])

def attrTokens (brackets : List (List Assignment)) : List Token := brackets.flatMap bracketTokens

/-- The attributes that brackets set, one after the other. -/
def attributesOf (brackets : List (List Assignment)) : Attributes :=
  brackets.flatten.foldl (fun attrs a => attrs.insert a.attribute) ∅

inductive Port
  | absent
  | alone (id : Id)
  | sided (id : Id) (compass : Compass)
deriving Repr, DecidableEq

def Port.tokens : Port → List Token
  | absent => []
  | alone id => .colon :: id.tokens
  | sided id compass => .colon :: (id.tokens ++ [.colon, .identifier compass.name])

structure NodeId where
  node : Id
  port : Port
deriving Repr, DecidableEq

def NodeId.tokens (id : NodeId) : List Token := id.node.tokens ++ id.port.tokens

/-- The endpoint with a port. One that is a compass point by its spelling is a side. -/
def Port.endpoint (node : String) : Port → Endpoint
  | absent => { node }
  | alone id =>
    match id.compass? with
    | some compass => { node, compass := some compass }
    | none => { node, port := some id.text }
  | sided id compass => { node, port := some id.text, compass := some compass }

def NodeId.endpoint (id : NodeId) : Endpoint := id.port.endpoint id.node.text

/-! ## Statements -/

/-- What stands in front of a body in braces. -/
inductive Head
  | absent
  | keyword (name : Option Id)
deriving Repr, DecidableEq

def Head.tokens : Head → List Token
  | absent => []
  | keyword name => .keyword .subgraph :: nameTokens name

def Head.name : Head → String
  | absent => ""
  | keyword name => nameText name

def categoryToken : Category → Token
  | .graph => .keyword .graph
  | .node => .keyword .node
  | .edge => .keyword .edge

mutual
inductive Group
  | braced (head : Head) (body : Body)
  | reference (id : Id)

/-- The statements of a body, each with a semicolon or not. -/
inductive Body
  | nil
  | cons (stmt : Stmt) (semicolon : Bool) (rest : Body)

inductive Operand
  | node (id : NodeId)
  | group (group : Group)

/-- Edge operators, of directed graphs or not, each with the operand behind it. -/
inductive Chain
  | nil
  | cons (directed : Bool) (operand : Operand) (rest : Chain)

inductive Stmt
  | defaults (category : Category) (first : List Assignment) (more : List (List Assignment))
  | assign (name value : Id)
  | node (id : NodeId) (attrs : List (List Assignment))
  | group (group : Group)
  | edge (first : Operand) (directed : Bool) (second : Operand) (more : Chain) (attrs : List (List Assignment))
end

structure Document where
  strict : Bool
  directed : Bool
  name : Option Id
  body : Body

def semicolonTokens (semicolon : Bool) : List Token := if semicolon then [.semicolon] else []

mutual
def Group.tokens : Group → List Token
  | .braced head body => head.tokens ++ .openBrace :: (body.tokens ++ [.closeBrace])
  | .reference id => .keyword .subgraph :: id.tokens

def Body.tokens : Body → List Token
  | .nil => []
  | .cons stmt semicolon rest => stmt.tokens ++ (semicolonTokens semicolon ++ rest.tokens)

def Operand.tokens : Operand → List Token
  | .node id => id.tokens
  | .group group => group.tokens

def Chain.tokens : Chain → List Token
  | .nil => []
  | .cons directed operand rest => .edgeOp directed :: (operand.tokens ++ rest.tokens)

def Stmt.tokens : Stmt → List Token
  | .defaults category first more => categoryToken category :: attrTokens (first :: more)
  | .assign name value => name.tokens ++ .equal :: value.tokens
  | .node id attrs => id.tokens ++ attrTokens attrs
  | .group group => group.tokens
  | .edge first directed second more attrs =>
    first.tokens ++ .edgeOp directed :: (second.tokens ++ (more.tokens ++ attrTokens attrs))
end

def Document.tokens (doc : Document) : List Token :=
  (if doc.strict then [.keyword .strict] else [])
    ++ .keyword (if doc.directed then .digraph else .graph)
    :: (nameTokens doc.name ++ .openBrace :: (doc.body.tokens ++ [.closeBrace]))

/-! ## Side conditions -/

/-- Whether all names in brackets can be those of attributes. -/
def AttrsCanName (brackets : List (List Assignment)) : Prop := ∀ a ∈ brackets.flatten, a.name.CanName

mutual
/-- In a graph that is directed or not, with `depth` bodies open around. -/
def Group.Admissible (directed : Bool) (depth : Nat) : Group → Prop
  | .braced _ body => depth < maxNesting ∧ body.Admissible directed (depth + 1)
  | .reference id => id.text ≠ ""

def Body.Admissible (directed : Bool) (depth : Nat) : Body → Prop
  | .nil => True
  | .cons stmt _ rest => stmt.Admissible directed depth ∧ rest.Admissible directed depth

def Operand.Admissible (directed : Bool) (depth : Nat) : Operand → Prop
  | .node _ => True
  | .group group => group.Admissible directed depth

def Chain.Admissible (directed : Bool) (depth : Nat) : Chain → Prop
  | .nil => True
  | .cons op operand rest =>
    op = directed ∧ operand.Admissible directed depth ∧ rest.Admissible directed depth

def Stmt.Admissible (directed : Bool) (depth : Nat) : Stmt → Prop
  | .defaults _ first more => AttrsCanName (first :: more)
  | .assign name _ => name.CanName
  | .node _ attrs => AttrsCanName attrs
  | .group group => group.Admissible directed depth
  | .edge first op second more attrs =>
    first.Admissible directed depth ∧ op = directed ∧ second.Admissible directed depth ∧
      more.Admissible directed depth ∧ AttrsCanName attrs
end

def Document.Admissible (doc : Document) : Prop := doc.body.Admissible doc.directed 0

/-! ## What a tree does -/

mutual
/-- Reads a group; gives the names of its nodes. -/
def Group.run (builder : Builder) : Group → List String × Builder
  | .braced head body => (body.run (builder.openSubgraph head.name)).closeSubgraph
  | .reference id => builder.referToSubgraph id.text

def Body.run (builder : Builder) : Body → Builder
  | .nil => builder
  | .cons stmt _ rest => rest.run (stmt.run builder)

def Operand.run (builder : Builder) : Operand → DotLang.Operand × Builder
  | .node id => (.node id.endpoint, builder)
  | .group group => (.group (group.run builder).1, (group.run builder).2)

def Chain.run (builder : Builder) : Chain → List DotLang.Operand × Builder
  | .nil => ([], builder)
  | .cons _ operand rest =>
    ((operand.run builder).1 :: (rest.run (operand.run builder).2).1, (rest.run (operand.run builder).2).2)

def Stmt.run (builder : Builder) : Stmt → Builder
  | .defaults category first more => builder.setDefaults category (attributesOf (first :: more))
  | .assign name value => builder.assign ⟨name.text, value.ident.value⟩
  | .node id attrs => builder.declareNode id.endpoint.node (attributesOf attrs)
  | .group group => (group.run builder).2
  | .edge first _ second more attrs =>
    let second := second.run (first.run builder).2
    let more := more.run second.2
    more.2.connect ((first.run builder).1 :: second.1 :: more.1) (attributesOf attrs)
end

def Document.kind (doc : Document) : GraphKind := ⟨doc.directed, doc.strict⟩

/-- The builder when the last brace is met. -/
def Document.finished (doc : Document) : Builder :=
  doc.body.run (Builder.new (nameText doc.name) doc.kind).enterScope

/-- The graph that a document describes. -/
def Document.graph (doc : Document) : Graph := doc.finished.leaveScope.graph

end DotLang.Grammar
