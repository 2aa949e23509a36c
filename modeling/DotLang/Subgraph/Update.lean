import DotLang.Subgraph.Basic

/-!
# Changing a tree of groups

Changes below the root of a tree search it from the top, each child before the next. Attaching keeps
two rules: the nodes of an attached tree become nodes of the root as well, and a name that is in the
tree already does not come in a second time, but gets what the newcomer has.
-/

namespace DotLang.Subgraph

/-! ## At a name -/

mutual
def modifyBelow? (name : String) (f : Subgraph → Subgraph) : Subgraph → Option Subgraph
  | ⟨own, attrs, nodes, children⟩ =>
    (modifyFirst? name f children).map fun children => ⟨own, attrs, nodes, children⟩

def modifyFirst? (name : String) (f : Subgraph → Subgraph) : List Subgraph → Option (List Subgraph)
  | [] => none
  | child :: rest =>
    if child.name = name then some (f child :: rest)
    else match modifyBelow? name f child with
      | some child => some (child :: rest)
      | none => (modifyFirst? name f rest).map (child :: ·)
end

/-- Changes the first group below this one with a name; there is no result if there is none. -/
def modify? (sub : Subgraph) (name : String) (f : Subgraph → Subgraph) : Option Subgraph :=
  if name.isEmpty then none else modifyBelow? name f sub

mutual
def detachBelow? (name : String) : Subgraph → Option (Subgraph × Subgraph)
  | ⟨own, attrs, nodes, children⟩ =>
    match children.find? fun child => child.name == name with
    | some found => some (found, ⟨own, attrs, nodes, children.eraseP fun child => child.name == name⟩)
    | none => (detachFirst? name children).map fun (found, children) => (found, ⟨own, attrs, nodes, children⟩)

def detachFirst? (name : String) : List Subgraph → Option (Subgraph × List Subgraph)
  | [] => none
  | child :: rest =>
    match detachBelow? name child with
    | some (found, child) => some (found, child :: rest)
    | none => (detachFirst? name rest).map fun (found, rest) => (found, child :: rest)
end

/-- Takes a group of a name out of the tree, a child before any group further down; gives the group and
the tree that is left, whose nodes stay as they are. -/
def detach? (sub : Subgraph) (name : String) : Option (Subgraph × Subgraph) :=
  if name.isEmpty then none else detachBelow? name sub

/-! ## Everywhere -/

mutual
def purge (name : String) : Subgraph → Subgraph
  | ⟨own, attrs, nodes, children⟩ => ⟨own, attrs, nodes.erase name, purgeAll name children⟩

def purgeAll (name : String) : List Subgraph → List Subgraph
  | [] => []
  | child :: rest => purge name child :: purgeAll name rest
end

/-! ## Attaching -/

mutual
/-- Takes over what another group has: its attributes, its nodes, and its children, each of which is
absorbed by the group of its name if there is one below. -/
def absorb (sub : Subgraph) : Subgraph → Subgraph
  | ⟨_, attrs, nodes, children⟩ =>
    absorbChildren
      { sub with attributes := sub.attributes.merge attrs, nodes := sub.nodes.addAll nodes.toList } children

def absorbChildren (sub : Subgraph) : List Subgraph → Subgraph
  | [] => sub
  | child :: rest =>
    match sub.modify? child.name fun group => group.absorb child with
    | some merged => absorbChildren merged rest
    | none => absorbChildren (sub.pushChild child) rest
end

/-- Attaches a tree to this one, below the group `parent` or at the root. All its nodes are added to
the root; if a group of its name is in the tree, that one absorbs it instead. There is no result if
the parent is missing. -/
def attachUnder (sub : Subgraph) (parent : Option String) (newcomer : Subgraph) : Option Subgraph :=
  if parent.all fun name => (sub.find? name).isSome then
    let root := { sub with nodes := sub.nodes.addAll newcomer.allNodes }
    match root.modify? newcomer.name fun group => group.absorb newcomer with
    | some merged => some merged
    | none =>
      match parent with
      | none => some (root.pushChild newcomer)
      | some name => root.modify? name fun group => group.pushChild newcomer
  else none

def attach (sub newcomer : Subgraph) : Subgraph :=
  (sub.attachUnder none newcomer).getD sub

end DotLang.Subgraph
