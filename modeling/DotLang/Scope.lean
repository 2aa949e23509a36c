import DotLang.Attribute
import DotLang.ScopedMap

/-!
# Default attributes

Each graph body opens a scope. The statements `graph [...]`, `node [...]` and `edge [...]` set defaults
in the innermost one; what is made later inherits those of all open scopes, and inner ones win.
-/

namespace DotLang

inductive Category
  | graph
  | node
  | edge
deriving Repr, DecidableEq

/-- The open scopes of defaults, for each category. -/
structure Scopes where
  graph : ScopedMap String AttrValue := ∅
  node : ScopedMap String AttrValue := ∅
  edge : ScopedMap String AttrValue := ∅
deriving Repr, DecidableEq, Inhabited

namespace Scopes

def push (scopes : Scopes) : Scopes :=
  ⟨scopes.graph.push, scopes.node.push, scopes.edge.push⟩

def pop (scopes : Scopes) : Scopes :=
  ⟨scopes.graph.pop, scopes.node.pop, scopes.edge.pop⟩

def depth (scopes : Scopes) : Nat := scopes.node.depth

def of (scopes : Scopes) : Category → ScopedMap String AttrValue
  | .graph => scopes.graph
  | .node => scopes.node
  | .edge => scopes.edge

def merge (scopes : Scopes) (category : Category) (attrs : Attributes) : Scopes :=
  let add (map : ScopedMap String AttrValue) :=
    attrs.entries.foldl (fun map attr => map.insert attr.name attr.value) map
  match category with
  | .graph => { scopes with graph := add scopes.graph }
  | .node => { scopes with node := add scopes.node }
  | .edge => { scopes with edge := add scopes.edge }

/-- The defaults that something new of a category gets. -/
def inherited (scopes : Scopes) (category : Category) : Attributes :=
  (scopes.of category).flatten.foldl (fun attrs (name, value) => attrs.insert ⟨name, value⟩) ∅

end Scopes

end DotLang
