import DotLang.Graph.Basic
import DotLang.Text.Line
import DotLang.Token.Basic

/-!
# The written form

How a graph is written: in a fixed form, with all names quoted, so that reading it gives the graph
again. The root lists its attributes, its nodes with theirs, its groups, and at last the edges. A group
lists its nodes by name alone, since their attributes stand at the root.
-/

namespace DotLang

/-- Where something is written: in a graph that is directed or not, and inside of a group or not. -/
structure Setting where
  directed : Bool
  inSubgraph : Bool := false
deriving Repr, DecidableEq

/-! ## Attributes -/

/-- Whether a name is read as an identifier, and as no keyword, when it is written without quotes. -/
def isBareName (name : String) : Bool :=
  match name.toList with
  | [] => false
  | c :: rest =>
    (c.isAlpha || c = '_') && rest.all (fun c => c.isAlphanum || c = '_') && (Keyword.ofName? name).isNone

def writeAttributeName (name : String) : String :=
  if isBareName name then name else quote name

def AttrValue.written : AttrValue → String
  | .string text => quote text
  | .markup text => "<" ++ text ++ ">"

def Attribute.written (attr : Attribute) : String :=
  writeAttributeName attr.name ++ "=" ++ attr.value.written ++ ";"

def Attributes.lines (attrs : Attributes) (depth : Nat) : List Line :=
  attrs.entries.map fun attr => ⟨depth, attr.written⟩

/-- An entry of a body: what it is about, and its attributes in brackets if it has any. -/
def entryLines (depth : Nat) (head : String) (attrs : Attributes) : List Line :=
  if attrs.isEmpty then [⟨depth, head ++ ";"⟩]
  else ⟨depth, head ++ " ["⟩ :: attrs.lines (depth + 1) ++ [⟨depth, "];"⟩]

/-! ## Nodes and edges -/

def Node.lines (node : Node) (depth : Nat) (setting : Setting) : List Line :=
  entryLines depth (quote node.name) (if setting.inSubgraph then ∅ else node.attributes)

/-- An endpoint as edges name it. A port that is spelled like a compass point is followed by the point
that means no side, or it would be read as a side. -/
def Endpoint.written (endpoint : Endpoint) : String :=
  let port := match endpoint.port with
    | none => ""
    | some port => ":" ++ quote port
  let side := match endpoint.compass, endpoint.port with
    | some compass, _ => ":" ++ compass.name
    | none, some port => if (Compass.ofName? port).isSome then ":_" else ""
    | none, none => ""
  quote endpoint.node ++ port ++ side

def Edge.lines (edge : Edge) (depth : Nat) (setting : Setting) : List Line :=
  let op := if setting.directed then "->" else "--"
  entryLines depth (edge.source.written ++ " " ++ op ++ " " ++ edge.destination.written) edge.attributes

/-! ## Groups and graphs -/

def bracedLines (depth : Nat) (head : String) (body : List Line) : List Line :=
  ⟨depth, head ++ " \x7b"⟩ :: body ++ [⟨depth, "\x7d"⟩]

def Subgraph.header (sub : Subgraph) : String :=
  if sub.name.isEmpty then "subgraph" else "subgraph " ++ quote sub.name

mutual
def Subgraph.bodyLines (depth : Nat) (setting : Setting) : Subgraph → List Line
  | ⟨_, attrs, nodes, children⟩ =>
    attrs.lines depth ++ nodes.toList.flatMap (fun node => node.lines depth setting)
      ++ Subgraph.childLines depth { setting with inSubgraph := true } children

def Subgraph.childLines (depth : Nat) (setting : Setting) : List Subgraph → List Line
  | [] => []
  | child :: rest =>
    bracedLines depth child.header (child.bodyLines (depth + 1) setting) ++ Subgraph.childLines depth setting rest
end

def Subgraph.lines (sub : Subgraph) (depth : Nat) (setting : Setting) : List Line :=
  Subgraph.childLines depth { setting with inSubgraph := true } [sub]

def Graph.header (graph : Graph) : String :=
  if graph.name.isEmpty then toString graph.kind else toString graph.kind ++ " " ++ quote graph.name

def Graph.lines (graph : Graph) (depth : Nat) (setting : Setting) : List Line :=
  bracedLines depth graph.header
    (graph.body.bodyLines (depth + 1) setting ++ graph.edges.flatMap fun edge => edge.lines (depth + 1) setting)

def Graph.toDot (graph : Graph) : String :=
  joinLines (graph.lines 0 ⟨graph.kind.directed, false⟩)

end DotLang
