import DotLang.Proofs.Attaching

/-!
# What holds of every group in a tree

A property of labels that is kept when one label takes in another holds of all groups that come out of
attaching one tree to another, whatever their names are.
-/

namespace DotLang.Subgraph

/-- All labels of a tree are as `Q` says. -/
def All (Q : Label → Prop) (sub : Subgraph) : Prop := ∀ label ∈ sub.labels, Q label

/-- A label that takes in another is as `Q` says if both are. -/
def KeptByMerging (Q : Label → Prop) : Prop :=
  ∀ {a b : Label}, Q a → Q b → Q (a.1, a.2.1.merge b.2.1, a.2.2.addAll b.2.2.toList)

section
variable {Q : Label → Prop}

theorem all_iff {sub : Subgraph} : sub.All Q ↔ Q sub.label ∧ ∀ child ∈ sub.children, child.All Q := by
  unfold All
  rw [labels_eq, List.forall_mem_cons, labelsBelow_eq, List.forall_mem_flatMap]

theorem All.of_mem {sub group : Subgraph} (h : sub.All Q) (hg : group ∈ sub.hierarchy) : group.All Q := by
  intro label hl
  obtain ⟨found, hf, rfl⟩ := List.mem_map.1 hl
  exact h _ (List.mem_map_of_mem (hierarchy_trans hf sub hg))

theorem All.pushChild {sub child : Subgraph} (h : sub.All Q) (hc : child.All Q) : (sub.pushChild child).All Q := by
  rw [all_iff] at h ⊢
  refine ⟨h.1, fun other ho => ?_⟩
  rcases List.mem_append.1 ho with ho | ho
  · exact h.2 other ho
  · rwa [List.mem_singleton.1 ho]

theorem All.modify? {sub result : Subgraph} (h : sub.All Q) {name : String} {f : Subgraph → Subgraph}
    (hf : ∀ group, group.All Q → (f group).All Q) (hm : sub.modify? name f = some result) : result.All Q := by
  obtain ⟨-, hl, group, hg, -, before, after, ho, hn⟩ := modify?_eq_some hm
  have hgroup : group.All Q := h.of_mem (by rw [hierarchy_eq]; exact List.mem_cons_of_mem _ hg)
  unfold All at h ⊢
  rw [labels_eq, List.forall_mem_cons, ho, List.forall_mem_append, List.forall_mem_append] at h
  rw [labels_eq, List.forall_mem_cons, hl, hn, List.forall_mem_append, List.forall_mem_append]
  exact ⟨h.1, ⟨h.2.1.1, hf group hgroup⟩, h.2.2⟩

mutual
theorem All.absorb (hQ : KeptByMerging Q) : ∀ {other sub : Subgraph}, sub.All Q → other.All Q →
    (sub.absorb other).All Q
  | ⟨name, attrs, nodes, children⟩, sub, h, ho => by
    rw [all_iff] at h ho
    rw [Subgraph.absorb]
    exact All.absorbChildren hQ (all_iff.2 ⟨hQ h.1 ho.1, h.2⟩) ho.2

theorem All.absorbChildren (hQ : KeptByMerging Q) : ∀ {children : List Subgraph} {sub : Subgraph}, sub.All Q →
    (∀ child ∈ children, child.All Q) → (sub.absorbChildren children).All Q
  | [], sub, h, _ => by rwa [Subgraph.absorbChildren]
  | child :: rest, sub, h, hc => by
    rw [List.forall_mem_cons] at hc
    rw [Subgraph.absorbChildren]
    split
    · rename_i merged hm
      exact All.absorbChildren hQ (h.modify? (fun group hg => All.absorb hQ hg hc.1) hm) hc.2
    · exact All.absorbChildren hQ (h.pushChild hc.1) hc.2
end

/-- With its new nodes in the root, a tree takes in another below any parent. -/
theorem All.attachUnder {sub newcomer result : Subgraph} {parent : Option String} (hQ : KeptByMerging Q)
    (h : Subgraph.All Q { sub with nodes := sub.nodes.addAll newcomer.allNodes }) (hn : newcomer.All Q)
    (hr : sub.attachUnder parent newcomer = some result) : result.All Q := by
  obtain ⟨root, rfl, hm | ⟨-, ⟨-, rfl⟩ | ⟨name, -, hm⟩⟩⟩ := attachUnder_eq_some hr
  · exact h.modify? (fun group hg => hg.absorb hQ hn) hm
  · exact h.pushChild hn
  · exact h.modify? (fun group hg => hg.pushChild hn) hm

end

/-! ## The root of a tree that takes in another -/

theorem label_attachUnder {sub newcomer result : Subgraph} {parent : Option String}
    (h : sub.attachUnder parent newcomer = some result) :
    result.label = (sub.name, sub.attributes, sub.nodes.addAll newcomer.allNodes) := by
  obtain ⟨root, rfl, hm | ⟨-, ⟨-, rfl⟩ | ⟨name, -, hm⟩⟩⟩ := attachUnder_eq_some h
  · exact (modify?_eq_some hm).2.1
  · rfl
  · exact (modify?_eq_some hm).2.1

theorem nodes_attachUnder {sub newcomer result : Subgraph} {parent : Option String}
    (h : sub.attachUnder parent newcomer = some result) : result.nodes = sub.nodes.addAll newcomer.allNodes :=
  congrArg (·.2.2) (label_attachUnder h)

/-- The tree takes in the nodes of a newcomer, and then the newcomer itself where it belongs. -/
theorem attach_eq (sub newcomer : Subgraph) :
    sub.attach newcomer =
      ((Subgraph.mk sub.name sub.attributes (sub.nodes.addAll newcomer.allNodes) sub.children).modify? newcomer.name
        fun group => group.absorb newcomer).getD
      ((Subgraph.mk sub.name sub.attributes (sub.nodes.addAll newcomer.allNodes) sub.children).pushChild newcomer) := by
  unfold attach attachUnder
  rw [Option.all_none, if_pos rfl]
  dsimp only
  split
  · rename_i merged hm
    rw [hm]
    rfl
  · rename_i hm
    rw [hm]
    rfl

theorem label_attach (sub newcomer : Subgraph) :
    (sub.attach newcomer).label = (sub.name, sub.attributes, sub.nodes.addAll newcomer.allNodes) :=
  label_attachUnder (attachUnder_none sub newcomer)

theorem nodes_attach (sub newcomer : Subgraph) :
    (sub.attach newcomer).nodes = sub.nodes.addAll newcomer.allNodes :=
  nodes_attachUnder (attachUnder_none sub newcomer)

end DotLang.Subgraph
