import DotLang.Proofs.Builder.Steps
import Mathlib.Data.List.ProdSigma

/-!
# The edges of a chain

A chain of operands joins each endpoint of one operand with each of the next. The edges come in this order, and
with them the nodes they mention: those that the root does not have come last in it, with the defaults in force,
and those that the innermost body does not have come last there. Nothing else in the builder is touched.
-/

namespace DotLang

namespace NodeMap

def ensureAll (attrs : Attributes) (map : NodeMap) (names : List String) : NodeMap :=
  names.foldl (ensure attrs) map

/-- The names that the map has no node of, where each comes first. -/
def missing (map : NodeMap) (names : List String) : List String :=
  (names.filter fun name => name ∉ map.names).eraseDups

theorem toList_ensure_of_not_mem {map : NodeMap} {name : String} (h : name ∉ map.names) (attrs : Attributes) :
    (map.ensure attrs name).toList = map.toList ++ [⟨name, attrs⟩] := by
  rw [ensure_of_not_mem h, toList_add, declare_of_not_mem h]

theorem toList_ensureAll {attrs : Attributes} : ∀ (names : List String) (map : NodeMap),
    (map.ensureAll attrs names).toList = map.toList ++ (map.missing names).map fun name => ⟨name, attrs⟩
  | [], map => (List.append_nil _).symm
  | name :: rest, map => by
    show ((map.ensure attrs name).ensureAll attrs rest).toList = _
    rw [toList_ensureAll rest]
    by_cases h : name ∈ map.names
    · have hmissing : map.missing (name :: rest) = map.missing rest := by simp [missing, h]
      rw [ensure_of_mem h, hmissing]
    · -- A new name comes next in the list, and is not missing any more for the rest.
      have hnew := toList_ensure_of_not_mem h attrs
      have hnames : (map.ensure attrs name).names = map.names ++ [name] := by
        rw [names, hnew, List.map_append]
        rfl
      have hmissing : map.missing (name :: rest) = name :: (map.ensure attrs name).missing rest := by
        unfold missing
        rw [hnames, List.filter_cons_of_pos (by simpa using h), List.eraseDups_cons, List.filter_filter]
        congr 2
        apply List.filter_congr
        intro other _
        rw [Bool.eq_iff_iff]
        simp [and_comm]
      rw [hnew, hmissing]
      simp

theorem mem_names_ensureAll {attrs : Attributes} {names : List String} {map : NodeMap} {name : String} :
    name ∈ (map.ensureAll attrs names).names ↔ name ∈ map.names ∨ name ∈ names := by
  have hmap : (map.ensureAll attrs names).names = map.names ++ map.missing names := by
    rw [NodeMap.names, toList_ensureAll, List.map_append, List.map_map]
    exact congrArg _ (List.map_id _)
  rw [hmap, List.mem_append, missing, List.mem_eraseDups, List.mem_filter]
  by_cases h : name ∈ map.names
  · simp [h]
  · simp [h]

end NodeMap

namespace Subgraph

def ensureNodes (attrs : Attributes) (names : List String) (sub : Subgraph) : Subgraph :=
  { sub with nodes := sub.nodes.ensureAll attrs names }

theorem ensureNodes_nil (attrs : Attributes) (sub : Subgraph) : sub.ensureNodes attrs [] = sub := by
  cases sub
  rfl

theorem ensureNodes_append (attrs : Attributes) (a b : List String) (sub : Subgraph) :
    sub.ensureNodes attrs (a ++ b) = (sub.ensureNodes attrs a).ensureNodes attrs b := by
  simp [ensureNodes, NodeMap.ensureAll]

/-- A group that has taken in names, as nodes with the attributes given where they are new. -/
structure Brings (attrs : Attributes) (names : List String) (a b : Subgraph) : Prop where
  name : b.name = a.name
  attributes : b.attributes = a.attributes
  children : b.children = a.children
  nodes : b.nodes.toList = a.nodes.toList ++ (a.nodes.missing names).map fun name => ⟨name, attrs⟩
  present : ∀ name ∈ names, b.nodes.contains name = true

theorem brings_ensureNodes (attrs : Attributes) (names : List String) (sub : Subgraph) :
    Brings attrs names sub (sub.ensureNodes attrs names) where
  name := rfl
  attributes := rfl
  children := rfl
  nodes := NodeMap.toList_ensureAll names sub.nodes
  present _ h := NodeMap.contains_iff.2 (NodeMap.mem_names_ensureAll.2 (Or.inr h))

end Subgraph

namespace Builder
open Subgraph

/-- The pairs of a chain: for each operand and the next, each endpoint of the one with each of the other. -/
def crossed : List Operand → List (Endpoint × Endpoint)
  | left :: right :: rest => left.endpoints ×ˢ right.endpoints ++ crossed (right :: rest)
  | _ => []

theorem chainPairs_eq_crossed : ∀ chain : List Operand, chainPairs chain = crossed chain
  | [] => rfl
  | [_] => rfl
  | left :: right :: rest => by
    rw [crossed, ← chainPairs_eq_crossed (right :: rest)]
    rfl

/-- The nodes that pairs of endpoints mention, in the order in which they are touched. -/
def mentioned (pairs : List (Endpoint × Endpoint)) : List String :=
  pairs.flatMap fun (source, destination) => [source.node, destination.node]

/-- The edges of a graph with others added in turn. -/
def extendEdges (kind : GraphKind) (edges new : List Edge) : List Edge :=
  if kind.strict then new.foldl (fun edges edge => Graph.insertStrict kind.directed edge edges) edges
  else edges ++ new

theorem extendEdges_append (kind : GraphKind) (edges a b : List Edge) :
    extendEdges kind edges (a ++ b) = extendEdges kind (extendEdges kind edges a) b := by
  unfold extendEdges
  split
  · exact List.foldl_append
  · exact (List.append_assoc ..).symm

/-- The builder with edges between pairs of endpoints, and with their nodes. -/
def tie (attrs : Attributes) (builder : Builder) (pairs : List (Endpoint × Endpoint)) : Builder :=
  { builder with
    graph :=
      { kind := builder.graph.kind
        body := builder.graph.body.ensureNodes (builder.scopes.inherited .node) (mentioned pairs)
        edges := extendEdges builder.graph.kind builder.graph.edges
          (pairs.map fun (source, destination) => ⟨source, destination, attrs⟩) }
    bodies := builder.bodies.modifyHead (ensureNodes ∅ (mentioned pairs)) }

theorem addEdge_eq_tie (attrs : Attributes) (builder : Builder) (source destination : Endpoint) :
    builder.addEdge attrs source destination = tie attrs builder [(source, destination)] := by
  -- Both nodes are in the root by then, so the edge itself brings none.
  obtain ⟨hs, hd⟩ := mem_names_touched builder source.node destination.node
  rw [addEdge, addEdge_eq hs hd, touchNode_eq, touchNode_eq]
  unfold tie extendEdges
  cases builder.bodies <;> rfl

theorem tie_nil (attrs : Attributes) (builder : Builder) : tie attrs builder [] = builder := by
  have hbodies : builder.bodies.modifyHead (ensureNodes ∅ []) = builder.bodies := by
    cases builder.bodies with
    | nil => rfl
    | cons body outer => rw [List.modifyHead_cons, ensureNodes_nil]
  have hedges : extendEdges builder.graph.kind builder.graph.edges [] = builder.graph.edges := by
    unfold extendEdges
    split
    · rfl
    · exact List.append_nil _
  show Builder.mk _ _ _ = builder
  rw [List.map_nil, hedges, show mentioned [] = [] from rfl, ensureNodes_nil, hbodies]

theorem tie_append (attrs : Attributes) (builder : Builder) (a b : List (Endpoint × Endpoint)) :
    tie attrs builder (a ++ b) = tie attrs (tie attrs builder a) b := by
  have hm : mentioned (a ++ b) = mentioned a ++ mentioned b := List.flatMap_append
  unfold tie
  rw [hm, List.map_append, extendEdges_append]
  have hbodies : builder.bodies.modifyHead (ensureNodes ∅ (mentioned a ++ mentioned b)) =
      (builder.bodies.modifyHead (ensureNodes ∅ (mentioned a))).modifyHead
        (ensureNodes ∅ (mentioned b)) := by
    rw [List.modifyHead_modifyHead]
    congr 1
    funext body
    exact ensureNodes_append ..
  rw [hbodies, ensureNodes_append]

theorem connect_eq_tie (builder : Builder) (chain : List Operand) (explicit : Attributes) :
    builder.connect chain explicit = tie ((builder.scopes.inherited .edge).merge explicit) builder (crossed chain) := by
  have key (attrs : Attributes) (pairs : List (Endpoint × Endpoint)) (builder : Builder) :
      pairs.foldl (fun builder (source, destination) => builder.addEdge attrs source destination) builder =
        tie attrs builder pairs := by
    induction pairs generalizing builder with
    | nil => exact (tie_nil attrs builder).symm
    | cons pair rest ih =>
      obtain ⟨source, destination⟩ := pair
      rw [List.foldl_cons, ih]
      dsimp only
      rw [addEdge_eq_tie]
      exact (tie_append attrs builder [(source, destination)] rest).symm
  rw [connect, chainPairs_eq_crossed]
  exact key ..

/-- A builder after pairs of endpoints were joined by edges with the attributes given. -/
structure Connected (attrs : Attributes) (pairs : List (Endpoint × Endpoint)) (a b : Builder) : Prop where
  kind : b.graph.kind = a.graph.kind
  edges : b.graph.edges = extendEdges a.graph.kind a.graph.edges
    (pairs.map fun (source, destination) => ⟨source, destination, attrs⟩)
  root : Brings (a.scopes.inherited .node) (mentioned pairs) a.graph.body b.graph.body
  inner : Option.Rel (Brings ∅ (mentioned pairs)) a.bodies.head? b.bodies.head?
  outer : b.bodies.tail = a.bodies.tail
  scopes : b.scopes = a.scopes

theorem connected_tie (attrs : Attributes) (builder : Builder) (pairs : List (Endpoint × Endpoint)) :
    Connected attrs pairs builder (tie attrs builder pairs) where
  kind := rfl
  edges := rfl
  root := brings_ensureNodes ..
  inner := by
    show Option.Rel _ _ (builder.bodies.modifyHead (ensureNodes ∅ (mentioned pairs))).head?
    cases builder.bodies with
    | nil => exact .none
    | cons body outer => exact .some (brings_ensureNodes ..)
  outer := by
    show (builder.bodies.modifyHead (ensureNodes ∅ (mentioned pairs))).tail = _
    cases builder.bodies <;> rfl
  scopes := rfl

/-- A chain brings an edge for each pair of endpoints that it crosses, with the defaults under the attributes of
the statement; and it brings their nodes. -/
theorem connect_crosses (builder : Builder) (chain : List Operand) (explicit : Attributes) :
    Connected ((builder.scopes.inherited .edge).merge explicit) (crossed chain) builder
      (builder.connect chain explicit) := by
  rw [connect_eq_tie]
  exact connected_tie ..

end Builder

end DotLang
