import DotLang.Note
import DotLang.Scope

/-!
# Building a graph from statements

A builder has the graph as far as it is finished, the groups whose bodies are still open, and the
defaults in force. Statements go to the innermost open body. A body that ends is attached to the one
around it; but if its name was used before, in the finished part or in an open body, it adds to what
has that name, and its nodes to all bodies that are open.
-/

namespace DotLang

inductive Operand
  | node (endpoint : Endpoint)
  /-- The nodes of a group. -/
  | group (names : List String)
deriving Repr, DecidableEq

def Operand.endpoints : Operand → List Endpoint
  | .node endpoint => [endpoint]
  | .group names => names.map fun name => { node := name }

structure Builder where
  graph : Graph
  /-- The groups whose bodies are open, innermost first. -/
  bodies : List Subgraph := []
  scopes : Scopes := {}

namespace Builder

def new (name : String) (kind : GraphKind) : Builder := { graph := .new name kind }

def kind (builder : Builder) : GraphKind := builder.graph.kind

def enterScope (builder : Builder) : Builder :=
  { builder with scopes := builder.scopes.push }

def leaveScope (builder : Builder) : Builder :=
  { builder with scopes := builder.scopes.pop }

/-! ## The current body -/

/-- The innermost open body, or the root. -/
def current (builder : Builder) : Subgraph :=
  builder.bodies.headD builder.graph.body

def modifyCurrent (builder : Builder) (f : Subgraph → Subgraph) : Builder :=
  match builder.bodies with
  | [] => { builder with graph := { builder.graph with body := f builder.graph.body } }
  | body :: outer => { builder with bodies := f body :: outer }

def setAttribute (builder : Builder) (name : String) (value : AttrValue) : Except Error Builder :=
  (builder.current.attributes.set name value).map fun attributes =>
    builder.modifyCurrent fun body => { body with attributes }

/-- Sets defaults of a category. Those of graphs are attributes of the current body as well. -/
def setDefaults (builder : Builder) (category : Category) (attrs : Attributes) : Builder :=
  let builder := { builder with scopes := builder.scopes.merge category attrs }
  match category with
  | .graph => builder.modifyCurrent fun body => { body with attributes := body.attributes.merge attrs }
  | .node | .edge => builder

/-- Declares a node of the current body, with the defaults under its own attributes. -/
def declareNode (builder : Builder) (name : String) (attrs : Attributes) : Builder :=
  builder.modifyCurrent fun body => body.addNode name ((builder.scopes.inherited .node).merge attrs)

/-! ## Edges -/

/-- Sees to it that a node which an edge mentions is in the root, where it starts with the defaults,
and in the current body. -/
def touchNode (builder : Builder) (name : String) : Builder :=
  let builder :=
    if builder.graph.nodes.contains name then builder
    else { builder with graph := builder.graph.addNode name (builder.scopes.inherited .node) }
  match builder.bodies with
  | [] => builder
  | body :: outer =>
    if body.nodes.contains name then builder else { builder with bodies := body.addNode name ∅ :: outer }

def addEdge (builder : Builder) (attrs : Attributes) (source destination : Endpoint) : Builder :=
  let builder := (builder.touchNode source.node).touchNode destination.node
  { builder with graph := builder.graph.addEdge ⟨source, destination, attrs⟩ }

/-- The pairs of endpoints that a chain of operands joins: for each two neighbours in it, every endpoint
of the first with every endpoint of the second. -/
def chainPairs (chain : List Operand) : List (Endpoint × Endpoint) :=
  (chain.zip chain.tail).flatMap fun (left, right) =>
    left.endpoints.flatMap fun source => right.endpoints.map fun destination => (source, destination)

/-- Adds the edges of a chain of operands, with the defaults under their own attributes. -/
def connect (builder : Builder) (chain : List Operand) (attrs : Attributes) : Builder :=
  let attrs := (builder.scopes.inherited .edge).merge attrs
  (chainPairs chain).foldl (fun builder (source, destination) => builder.addEdge attrs source destination) builder

/-! ## Groups -/

def openSubgraph (builder : Builder) (name : String) : Builder :=
  let body := Subgraph.new name (builder.scopes.inherited .graph)
  { builder with bodies := body :: builder.bodies }.enterScope

/-- Whether an open body has the name, or a group below it. -/
def usesName (body : Subgraph) (name : String) : Bool :=
  (!name.isEmpty && body.name == name) || (body.find? name).isSome

/-- Whether a name was used, in the finished part or in an open body. -/
def isKnown (builder : Builder) (name : String) : Bool :=
  (builder.graph.body.find? name).isSome || builder.bodies.any fun body => usesName body name

/-- Lets the first open body that has the name of a group, or has it below, absorb the group. -/
def absorbOpen? (sub : Subgraph) : List Subgraph → Option (List Subgraph)
  | [] => none
  | body :: outer =>
    if body.name = sub.name then some (body.absorb sub :: outer)
    else match body.modify? sub.name fun group => group.absorb sub with
      | some body => some (body :: outer)
      | none => (absorbOpen? sub outer).map (body :: ·)

/-- Merges a group into what has its name. Its nodes are added to all open bodies, since it was read
inside of them. The group comes back if it is still to be attached: its name was not used before. -/
def mergeReopened (builder : Builder) (sub : Subgraph) : Builder × Option Subgraph :=
  if builder.isKnown sub.name then
    let bodies := builder.bodies.map fun body => { body with nodes := body.nodes.addAll sub.allNodes }
    match builder.graph.modifySubgraph? sub.name fun group => group.absorb sub with
    | some graph => ({ builder with graph, bodies }, none)
    | none =>
      match absorbOpen? sub bodies with
      | some bodies => ({ builder with bodies }, none)
      | none => ({ builder with bodies }, some sub)
  else (builder, some sub)

def attach (builder : Builder) (sub : Subgraph) : Builder :=
  match builder.bodies with
  | [] => { builder with graph := builder.graph.attach sub }
  | _ :: _ =>
    match builder.mergeReopened sub with
    | (builder, none) => builder
    | (builder, some sub) => builder.modifyCurrent fun body => body.attach sub

def attachNotes (builder : Builder) (sub : Subgraph) : List Note :=
  match builder.bodies with
  | [] => builder.graph.body.attachNotes none sub
  | body :: _ => if builder.isKnown sub.name then [.reopening sub.name] else body.attachNotes none sub

/-- Ends the innermost open body; gives the names of its nodes. Without one only the scope ends. -/
def closeSubgraph (builder : Builder) : List String × Builder :=
  let builder := builder.leaveScope
  match builder.bodies with
  | [] => ([], builder)
  | sub :: outer => (sub.nodeNames, { builder with bodies := outer }.attach sub)

def closeNotes (builder : Builder) : List Note :=
  match builder.bodies with
  | [] => []
  | sub :: outer =>
    .closing sub.name sub.nodeNames.length :: { builder with bodies := outer }.attachNotes sub

/-- The first open body that has a name, or the group below it that has. -/
def findOpen? (name : String) : List Subgraph → Option Subgraph
  | [] => none
  | body :: outer =>
    if body.name == name && !name.isEmpty then some body else (body.find? name).or (findOpen? name outer)

/-- Refers to a group by name; gives the names of its nodes. An unknown name declares a group without
nodes. -/
def referToSubgraph (builder : Builder) (name : String) : List String × Builder :=
  match (builder.graph.body.find? name).or (findOpen? name builder.bodies) with
  | some sub => (sub.nodeNames, builder)
  | none => ([], builder.attach (.new name (builder.scopes.inherited .graph)))

end Builder

end DotLang
