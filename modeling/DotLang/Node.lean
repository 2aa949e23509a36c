import DotLang.Attribute
import Std.Data.TreeMap

/-!
# Nodes

The nodes of a graph body, in the order of their declaration, with an index from names to places. The
index holds the names of the nodes and nothing else, each with the place of its node; so names are
distinct, and a place that the index gives is there.
-/

namespace DotLang

structure Node where
  name : String
  attributes : Attributes
deriving Repr, DecidableEq

structure NodeMap where
  nodes : Array Node
  index : Std.TreeMap String Nat
  index_spec : ∀ name i, index[name]? = some i ↔ nodes[i]?.map Node.name = some name

namespace NodeMap

def empty : NodeMap where
  nodes := #[]
  index := ∅
  index_spec := by simp

instance : EmptyCollection NodeMap := ⟨empty⟩

instance : Inhabited NodeMap := ⟨empty⟩

def size (map : NodeMap) : Nat := map.nodes.size

def isEmpty (map : NodeMap) : Bool := map.nodes.isEmpty

def toList (map : NodeMap) : List Node := map.nodes.toList

def names (map : NodeMap) : List String := map.toList.map Node.name

def contains (map : NodeMap) (name : String) : Bool := map.index.contains name

def get? (map : NodeMap) (name : String) : Option Node :=
  map.index[name]?.bind fun i => map.nodes[i]?

def modify (map : NodeMap) (name : String) (f : Attributes → Attributes) : NodeMap :=
  match map.index[name]? with
  | none => map
  | some i =>
    { map with
      nodes := map.nodes.modify i fun node => { node with attributes := f node.attributes }
      index_spec := by
        intro name j
        rw [map.index_spec, Array.getElem?_modify]
        by_cases h : i = j <;> simp [h, Option.map_map, Function.comp_def] }

def push (map : NodeMap) (node : Node) (h : map.index[node.name]? = none) : NodeMap where
  nodes := map.nodes.push node
  index := map.index.insert node.name map.nodes.size
  index_spec := by
    intro name i
    rw [Std.TreeMap.getElem?_insert, Array.getElem?_push]
    have hs := map.index_spec name i
    by_cases hn : node.name = name
    · subst hn
      have hi : ¬ map.nodes[i]?.map Node.name = some node.name := by rw [← hs, h]; simp
      by_cases hsize : i = map.nodes.size <;> simp_all [eq_comm]
    · by_cases hsize : i = map.nodes.size
      · subst hsize
        simp_all [Std.LawfulEqCmp.compare_eq_iff_eq]
      · simp_all [Std.LawfulEqCmp.compare_eq_iff_eq]

def add (map : NodeMap) (name : String) (attrs : Attributes) : NodeMap :=
  match h : map.index[name]? with
  | none => map.push ⟨name, attrs⟩ h
  | some _ => map.modify name (·.merge attrs)

def addAll (map : NodeMap) (nodes : List Node) : NodeMap :=
  nodes.foldl (fun map node => map.add node.name node.attributes) map

/-- Removes a node, if it is there. The nodes behind it move up by one place. -/
def erase (map : NodeMap) (name : String) : NodeMap :=
  match h : map.index[name]? with
  | none => map
  | some place =>
    have hp : place < map.nodes.size := by
      have := (map.index_spec name place).1 h
      obtain ⟨node, hnode, _⟩ := Option.map_eq_some_iff.1 this
      exact (Array.getElem?_eq_some_iff.1 hnode).1
    { nodes := map.nodes.eraseIdx place hp
      index := (map.index.erase name).map fun _ i => if place < i then i - 1 else i
      index_spec := by
        intro other i
        have hplace := map.index_spec name place
        have hname := map.index_spec name
        have hother := map.index_spec other
        rw [Std.TreeMap.getElem?_map, Std.TreeMap.getElem?_erase, Array.getElem?_eraseIdx]
        by_cases hn : name = other
        · subst hn
          have (j : Nat) (hj : j ≠ place) : ¬ map.nodes[j]?.map Node.name = some name := by
            rw [← hname j, h]; simpa using Ne.symm hj
          by_cases hi : i < place
          · simpa [hi] using this i (by omega)
          · simpa [hi] using this (i + 1) (by omega)
        · have hne : ¬ compare name other = .eq := by simpa using hn
          have hfar : map.index[other]? ≠ some place := by
            intro ho
            have h₁ := (hother place).1 ho
            have h₂ := hplace.1 h
            rw [h₁] at h₂
            exact hn (Option.some.inj h₂).symm
          rw [if_neg hne, Option.map_eq_some_iff]
          by_cases hi : i < place
          · rw [if_pos hi, ← hother i]
            constructor
            · rintro ⟨j, hj, he⟩
              have : j ≠ place := fun e => hfar (e ▸ hj)
              split at he
              · omega
              · exact he ▸ hj
            · exact fun hj => ⟨i, hj, if_neg (by omega)⟩
          · rw [if_neg hi, ← hother (i + 1)]
            constructor
            · rintro ⟨j, hj, he⟩
              have : j ≠ place := fun e => hfar (e ▸ hj)
              split at he
              · have : j = i + 1 := by omega
                exact this ▸ hj
              · omega
            · exact fun hj => ⟨i + 1, hj, by rw [if_pos (by omega)]; omega⟩ }

end NodeMap

end DotLang
