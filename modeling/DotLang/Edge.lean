import DotLang.Attribute

/-!
# Edges

An edge joins two endpoints, each a node with the port and the side at which the edge meets it.
-/

namespace DotLang

inductive Compass
  | n
  | ne
  | e
  | se
  | s
  | sw
  | w
  | nw
  | c
  | any
deriving Repr, DecidableEq

namespace Compass

def name : Compass → String
  | n => "n"
  | ne => "ne"
  | e => "e"
  | se => "se"
  | s => "s"
  | sw => "sw"
  | w => "w"
  | nw => "nw"
  | c => "c"
  | any => "_"

def all : List Compass := [n, ne, e, se, s, sw, w, nw, c, any]

def ofName? (name : String) : Option Compass :=
  all.find? fun compass => compass.name == name

end Compass

structure Endpoint where
  node : String
  port : Option String := none
  compass : Option Compass := none
deriving Repr, DecidableEq

structure Edge where
  source : Endpoint
  destination : Endpoint
  attributes : Attributes
deriving Repr, DecidableEq

namespace Edge

def leads (edge : Edge) (a b : String) : Bool :=
  edge.source.node == a && edge.destination.node == b

/-- Whether the edge connects `a` to `b`, or the other way round where direction does not count. -/
def connects (edge : Edge) (a b : String) (directed : Bool) : Bool :=
  edge.leads a b || (!directed && edge.leads b a)

def touches (edge : Edge) (node : String) : Bool :=
  edge.source.node == node || edge.destination.node == node

end Edge

end DotLang
