import DotLang.Proofs.Values
import Mathlib.Data.Option.Basic

/-!
# Trees that are alike to a node

Two trees of the same shape and with the same names are alike to a node if it has the same attributes in
each group of the one as in that of the other. Whatever is done by name, or by merging, keeps them alike,
for other nodes play no part in where a group goes.
-/

namespace DotLang.Subgraph

mutual
inductive Alike (node : String) : Subgraph → Subgraph → Prop
  | intro {name : String} {attrs attrs' : Attributes} {nodes nodes' : NodeMap} {children children' : List Subgraph}
    (value : nodes'.attrsOf node = nodes.attrsOf node) (nodup : (nodes.attrsOf node).names.Nodup)
    (below : AllAlike node children children') :
    Alike node ⟨name, attrs, nodes, children⟩ ⟨name, attrs', nodes', children'⟩

inductive AllAlike (node : String) : List Subgraph → List Subgraph → Prop
  | nil : AllAlike node [] []
  | cons {a b : Subgraph} {as bs : List Subgraph} (head : Alike node a b) (tail : AllAlike node as bs) :
    AllAlike node (a :: as) (b :: bs)
end

section
variable {node : String}

theorem alike_iff {a b : Subgraph} :
    Alike node a b ↔ b.name = a.name ∧ b.nodes.attrsOf node = a.nodes.attrsOf node ∧
      (a.nodes.attrsOf node).names.Nodup ∧ AllAlike node a.children b.children := by
  constructor
  · rintro ⟨value, nodup, below⟩
    exact ⟨rfl, value, nodup, below⟩
  · obtain ⟨name, attrs, nodes, children⟩ := a
    obtain ⟨name', attrs', nodes', children'⟩ := b
    rintro ⟨rfl, value, nodup, below⟩
    exact .intro value nodup below

mutual
theorem Alike.refl : ∀ {sub : Subgraph}, (∀ value ∈ sub.values node, value.names.Nodup) → Alike node sub sub
  | ⟨_, _, _, _⟩, h => by
    rw [values_eq, valuesBelow_eq, List.forall_mem_cons] at h
    exact .intro rfl h.1 (AllAlike.refl h.2)

theorem AllAlike.refl : ∀ {subs : List Subgraph}, (∀ value ∈ subs.flatMap (values node), value.names.Nodup) →
    AllAlike node subs subs
  | [], _ => .nil
  | _ :: _, h => by
    rw [List.flatMap_cons, List.forall_mem_append] at h
    exact .cons (Alike.refl h.1) (AllAlike.refl h.2)
end

theorem AllAlike.append {a b c d : List Subgraph} (h : AllAlike node a b) (h' : AllAlike node c d) :
    AllAlike node (a ++ c) (b ++ d) := by
  induction a generalizing b with
  | nil =>
    cases h
    exact h'
  | cons _ _ ih =>
    cases h with
    | cons head tail => exact .cons head (ih tail)

theorem AllAlike.map {f : Subgraph → Subgraph} {f' : Subgraph → Subgraph}
    (hf : ∀ {a b : Subgraph}, Alike node a b → Alike node (f a) (f' b)) :
    ∀ {as bs : List Subgraph}, AllAlike node as bs → AllAlike node (as.map f) (bs.map f')
  | [], _, .nil => .nil
  | _ :: _, _, .cons head tail => .cons (hf head) (tail.map hf)

theorem AllAlike.length_eq : ∀ {as bs : List Subgraph}, AllAlike node as bs → bs.length = as.length
  | [], _, .nil => rfl
  | _ :: _, _, .cons _ tail => congrArg (· + 1) tail.length_eq

theorem AllAlike.eq_nil {as bs : List Subgraph} (h : AllAlike node as bs) : bs = [] ↔ as = [] := by
  rw [← List.length_eq_zero_iff, h.length_eq, List.length_eq_zero_iff]

/-! ## What they have in common -/

mutual
theorem Alike.common : ∀ {a b : Subgraph}, Alike node a b →
    b.labels.map Prod.fst = a.labels.map Prod.fst ∧ b.values node = a.values node ∧
      ∀ value ∈ a.values node, value.names.Nodup
  | ⟨_, _, _, _⟩, _, .intro value nodup below => by
    obtain ⟨hn, hv, hd⟩ := below.common
    refine ⟨?_, ?_, ?_⟩
    · rw [labels_eq, labels_eq, labelsBelow_eq, labelsBelow_eq, List.map_cons, List.map_cons, hn]
      rfl
    · rw [values_eq, values_eq, valuesBelow_eq, valuesBelow_eq, hv, value]
    · rw [values_eq, valuesBelow_eq, List.forall_mem_cons]
      exact ⟨nodup, hd⟩

theorem AllAlike.common : ∀ {as bs : List Subgraph}, AllAlike node as bs →
    (bs.flatMap labels).map Prod.fst = (as.flatMap labels).map Prod.fst ∧
      bs.flatMap (values node) = as.flatMap (values node) ∧ ∀ value ∈ as.flatMap (values node), value.names.Nodup
  | [], _, .nil => ⟨rfl, rfl, by simp⟩
  | _ :: _, _, .cons head tail => by
    obtain ⟨hn, hv, hd⟩ := head.common
    obtain ⟨hn', hv', hd'⟩ := tail.common
    simp only [List.flatMap_cons, List.map_append, List.forall_mem_append]
    exact ⟨by rw [hn, hn'], by rw [hv, hv'], hd, hd'⟩
end

theorem AllAlike.groupNames {a b : Subgraph} (h : AllAlike node a.children b.children) : b.groupNames = a.groupNames := by
  unfold Subgraph.groupNames properNames
  rw [labelsBelow_eq, labelsBelow_eq, h.common.1]

theorem Alike.name {a b : Subgraph} (h : Alike node a b) : b.name = a.name := (alike_iff.1 h).1

theorem Alike.groupNames {a b : Subgraph} (h : Alike node a b) : b.groupNames = a.groupNames :=
  (alike_iff.1 h).2.2.2.groupNames

theorem Alike.of_labels {a b c d : Subgraph} (h : Alike node a b) (hc : c.label = a.label) (hd : d.label = b.label)
    (below : AllAlike node c.children d.children) : Alike node c d := by
  obtain ⟨hname, hvalue, hnodup, -⟩ := alike_iff.1 h
  have hcn : c.nodes = a.nodes := congrArg (·.2.2) hc
  have hdn : d.nodes = b.nodes := congrArg (·.2.2) hd
  refine alike_iff.2 ⟨?_, ?_, ?_, below⟩
  · rw [show d.name = b.name from congrArg Prod.fst hd, show c.name = a.name from congrArg Prod.fst hc, hname]
  · rw [hdn, hcn, hvalue]
  · rwa [hcn]

theorem Alike.addNode {a b : Subgraph} (h : Alike node a b) (name : String) : Alike node a (b.addNode name ∅) := by
  obtain ⟨hname, hvalue, hnodup, hbelow⟩ := alike_iff.1 h
  exact alike_iff.2 ⟨hname, (NodeMap.attrsOf_add_empty ..).trans hvalue, hnodup, hbelow⟩

theorem Alike.ensureNode {a b : Subgraph} (h : Alike node a b) (name : String) :
    Alike node a (b.ensureNode ∅ name) := by
  by_cases hm : name ∈ b.nodes.names
  · rwa [ensureNode_of_mem hm]
  · rw [ensureNode_of_not_mem hm]
    exact h.addNode name

/-! ## Changing a group -/

section
variable {name : String} {f f' : Subgraph → Subgraph}

mutual
theorem AllAlike.modifyBelow? (hf : ∀ {a b : Subgraph}, Alike node a b → Alike node (f a) (f' b)) :
    ∀ {a b : Subgraph}, AllAlike node a.children b.children →
      Option.Rel (fun c d => c.label = a.label ∧ d.label = b.label ∧ AllAlike node c.children d.children)
        (modifyBelow? name f a) (modifyBelow? name f' b)
  | ⟨_, _, _, children⟩, ⟨_, _, _, children'⟩, h => by
    rw [Subgraph.modifyBelow?, Subgraph.modifyBelow?]
    have hr : Option.Rel (AllAlike node) (Subgraph.modifyFirst? name f children) (Subgraph.modifyFirst? name f' children') :=
      AllAlike.modifyFirst? hf h
    revert hr
    generalize Subgraph.modifyFirst? name f children = c
    generalize Subgraph.modifyFirst? name f' children' = d
    rintro (hr | _)
    · exact .some ⟨rfl, rfl, hr⟩
    · exact .none

theorem AllAlike.modifyFirst? (hf : ∀ {a b : Subgraph}, Alike node a b → Alike node (f a) (f' b)) :
    ∀ {as bs : List Subgraph}, AllAlike node as bs →
      Option.Rel (AllAlike node) (modifyFirst? name f as) (modifyFirst? name f' bs)
  | [], _, .nil => .none
  | a :: as, b :: bs, .cons head tail => by
    rw [Subgraph.modifyFirst?, Subgraph.modifyFirst?, head.name]
    by_cases hn : a.name = name
    · rw [if_pos hn, if_pos hn]
      exact .some (.cons (hf head) tail)
    · rw [if_neg hn, if_neg hn]
      have hb := AllAlike.modifyBelow? hf (a := a) (b := b) (alike_iff.1 head).2.2.2
      have ht := AllAlike.modifyFirst? hf tail
      revert hb ht
      generalize Subgraph.modifyBelow? name f a = c
      generalize Subgraph.modifyBelow? name f' b = d
      generalize Subgraph.modifyFirst? name f as = cs
      generalize Subgraph.modifyFirst? name f' bs = ds
      rintro (⟨hc, hd, hr⟩ | _) ht
      · exact .some (.cons (head.of_labels hc hd hr) tail)
      · cases ht with
        | some ht => exact .some (.cons head ht)
        | none => exact .none
end

variable (name)

theorem AllAlike.modify? (hf : ∀ {a b : Subgraph}, Alike node a b → Alike node (f a) (f' b)) {a b : Subgraph}
    (h : AllAlike node a.children b.children) :
    Option.Rel (fun c d => c.label = a.label ∧ d.label = b.label ∧ AllAlike node c.children d.children)
      (a.modify? name f) (b.modify? name f') := by
  unfold Subgraph.modify?
  split
  · exact .none
  · exact h.modifyBelow? hf

theorem Alike.modify? (hf : ∀ {a b : Subgraph}, Alike node a b → Alike node (f a) (f' b)) {a b : Subgraph}
    (h : Alike node a b) : Option.Rel (Alike node) (a.modify? name f) (b.modify? name f') := by
  have hr := AllAlike.modify? name hf (alike_iff.1 h).2.2.2
  revert hr
  generalize a.modify? name f = c
  generalize b.modify? name f' = d
  rintro (⟨hc, hd, hr⟩ | _)
  · exact .some (h.of_labels hc hd hr)
  · exact .none

end

/-! ## Taking in another tree -/

theorem Alike.pushChild {a b s t : Subgraph} (h : Alike node a b) (hs : Alike node s t) :
    Alike node (a.pushChild s) (b.pushChild t) := by
  obtain ⟨hname, hvalue, hnodup, hbelow⟩ := alike_iff.1 h
  exact alike_iff.2 ⟨hname, hvalue, hnodup, hbelow.append (.cons hs .nil)⟩

mutual
theorem Alike.absorb : ∀ {s t a b : Subgraph}, Alike node a b → Alike node s t → Alike node (a.absorb s) (b.absorb t)
  | ⟨_, _, nodes, children⟩, ⟨_, _, nodes', children'⟩, a, b, h, hs => by
    obtain ⟨hname, hvalue, hnodup, hbelow⟩ := alike_iff.1 h
    obtain ⟨-, hsvalue, hsnodup, hsbelow⟩ := alike_iff.1 hs
    -- The recursion is on the trees that come in; those that take them in grow on the way.
    rw [Subgraph.absorb, Subgraph.absorb]
    refine AllAlike.absorb (alike_iff.2 ⟨hname, ?_, ?_, hbelow⟩) hsbelow
    · show (b.nodes.addAll nodes'.toList).attrsOf node = (a.nodes.addAll nodes.toList).attrsOf node
      have hsvalue : nodes'.attrsOf node = nodes.attrsOf node := hsvalue
      rw [NodeMap.attrsOf_addAll_toList (hsvalue ▸ hsnodup), NodeMap.attrsOf_addAll_toList hsnodup, hvalue, hsvalue]
    · show ((a.nodes.addAll nodes.toList).attrsOf node).names.Nodup
      rw [NodeMap.attrsOf_addAll_toList hsnodup]
      exact Attributes.nodup_names_merge hnodup _

theorem AllAlike.absorb : ∀ {ss ts : List Subgraph} {a b : Subgraph}, Alike node a b → AllAlike node ss ts →
    Alike node (a.absorbChildren ss) (b.absorbChildren ts)
  | [], _, _, _, h, .nil => by rwa [absorbChildren, absorbChildren]
  | s :: ss, t :: ts, a, b, h, .cons head tail => by
    rw [absorbChildren, absorbChildren, head.name]
    have hr := Alike.modify? s.name (fun hg => Alike.absorb hg head) h
    revert hr
    generalize a.modify? s.name (fun group => group.absorb s) = c
    generalize b.modify? s.name (fun group => group.absorb t) = d
    rintro (hr | _)
    · exact AllAlike.absorb hr tail
    · exact AllAlike.absorb (h.pushChild head) tail
end

/-! ## Attaching -/

theorem Alike.attrsOf_addAll {s t : Subgraph} (hs : Alike node s t) (map : NodeMap) :
    (map.addAll s.allNodes).attrsOf node = (map.attrsOf node).merge (Attributes.mergeAll (s.values node)) ∧
      (map.addAll t.allNodes).attrsOf node = (map.attrsOf node).merge (Attributes.mergeAll (s.values node)) := by
  obtain ⟨-, hv, hd⟩ := hs.common
  refine ⟨attrsOf_addAll_allNodes hd map, ?_⟩
  rw [attrsOf_addAll_allNodes (hv ▸ hd), hv]

theorem Alike.withNodes {a b s t : Subgraph} (h : Alike node a b) (hs : Alike node s t) :
    Alike node { a with nodes := a.nodes.addAll s.allNodes } { b with nodes := b.nodes.addAll t.allNodes } := by
  obtain ⟨hname, hvalue, hnodup, hbelow⟩ := alike_iff.1 h
  refine alike_iff.2 ⟨hname, ?_, ?_, hbelow⟩
  · rw [(hs.attrsOf_addAll _).2, hvalue, ← (hs.attrsOf_addAll _).1]
  · show ((a.nodes.addAll s.allNodes).attrsOf node).names.Nodup
    rw [(hs.attrsOf_addAll _).1]
    exact Attributes.nodup_names_merge hnodup _

/-- What is attached goes to the same place below both roots. -/
theorem AllAlike.attach {a b s t : Subgraph} (h : AllAlike node a.children b.children) (hs : Alike node s t) :
    AllAlike node (a.attach s).children (b.attach t).children := by
  rw [attach_eq, attach_eq, hs.name]
  have hr := AllAlike.modify? s.name (fun hg => hg.absorb hs)
    (a := ⟨a.name, a.attributes, a.nodes.addAll s.allNodes, a.children⟩)
    (b := ⟨b.name, b.attributes, b.nodes.addAll t.allNodes, b.children⟩) h
  revert hr
  generalize Subgraph.modify? _ s.name (fun group => group.absorb s) = c
  generalize Subgraph.modify? _ s.name (fun group => group.absorb t) = d
  rintro (⟨-, -, hr⟩ | _)
  · exact hr
  · exact h.append (.cons hs .nil)

theorem Alike.attach {a b s t : Subgraph} (h : Alike node a b) (hs : Alike node s t) :
    Alike node (a.attach s) (b.attach t) :=
  (h.withNodes hs).of_labels (label_attach a s) (label_attach b t) ((alike_iff.1 h).2.2.2.attach hs)

end

end DotLang.Subgraph
