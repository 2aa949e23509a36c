import DotLang.Graph.Basic

/-!
# Notes

What an operation has to tell about its course. A note knows how much it matters, which part of the
library it comes from, and its words. The operations themselves do not depend on notes: what there is
to note is a function of what they are given.
-/

namespace DotLang

/-- How much a record matters, the weightiest first. -/
inductive Level
  | error
  | warn
  | info
  | debug
  | trace
deriving Repr, DecidableEq

namespace Level

def rank : Level → Nat
  | error => 1
  | warn => 2
  | info => 3
  | debug => 4
  | trace => 5

def name : Level → String
  | error => "ERROR"
  | warn => "WARN"
  | info => "INFO"
  | debug => "DEBUG"
  | trace => "TRACE"

end Level

inductive Note
  /-- The body of a group ended; it has so many nodes. -/
  | closing (name : String) (nodes : Nat)
  /-- A group ended whose name was used before. -/
  | reopening (name : String)
  /-- A group was attached whose name is in the tree. -/
  | merging (name : String)
  /-- A node was removed with so many edges. -/
  | removed (name : String) (edges : Nat)
  | parsed (kind : GraphKind) (nodes edges : Nat)
  | wrote (bytes : Nat) (path : String)
deriving Repr, DecidableEq

namespace Note

def level : Note → Level
  | closing .. | reopening _ | merging _ | removed .. => .debug
  | parsed .. | wrote .. => .info

def target : Note → String
  | closing .. | reopening _ => "dotgraph::gv::builder"
  | merging _ => "dotgraph::graph::subgraph"
  | removed .. => "dotgraph::graph::graph"
  | parsed .. => "dotgraph::gv::parser::parser"
  | wrote .. => "dotgraph::core::utils"

def message : Note → String
  | closing name nodes => s!"Closing subgraph \"{name}\" with {nodes} nodes"
  | reopening name => s!"Reopening subgraph \"{name}\""
  | merging name => s!"Merging duplicate subgraph \"{name}\""
  | removed name edges => s!"Removed node \"{name}\" and {edges} edges"
  | parsed kind nodes edges => s!"Parsed {kind} with {nodes} nodes and {edges} edges"
  | wrote bytes path => s!"Wrote {bytes} bytes to {path}"

end Note

/-- What attaching a tree is worth noting for: that a group of its name was there. -/
def Subgraph.attachNotes (sub : Subgraph) (parent : Option String) (newcomer : Subgraph) : List Note :=
  if (parent.all fun name => (sub.find? name).isSome) && (sub.find? newcomer.name).isSome then
    [.merging newcomer.name]
  else []

def Graph.erasureNote (graph : Graph) (name : String) : Note :=
  .removed name (graph.edges.countP fun edge => edge.touches name)

end DotLang
