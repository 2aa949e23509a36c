import DotLang.Proofs.Hierarchy

/-!
# Attaching trees without clashes

When no name below a group is a name below a newcomer, absorbing the newcomer only appends its children,
and attaching it adds the labels of its hierarchy, its own left out if a group of its name is there. The
nodes of the newcomer always arrive, and nothing else does.
-/

namespace DotLang.Subgraph

/-! ## Labels of changed groups -/

theorem memberNames_cons (sub : Subgraph) :
    sub.memberNames = sub.nodes.names ++ sub.labelsBelow.flatMap fun label => label.2.2.names := by
  rw [memberNames, labels_eq, List.flatMap_cons]
  rfl

theorem labelsBelow_of_children {sub : Subgraph} {a b : List Subgraph} (h : sub.children = a ++ b) :
    sub.labelsBelow = a.flatMap labels ++ b.flatMap labels := by
  rw [labelsBelow_eq, h, List.flatMap_append]

theorem labelsBelow_pushChild (sub child : Subgraph) :
    (sub.pushChild child).labelsBelow = sub.labelsBelow ++ child.labels := by
  have hc : (sub.pushChild child).children = sub.children ++ [child] := rfl
  rw [labelsBelow_of_children hc, ← labelsBelow_eq]
  simp

theorem groupNames_pushChild (sub child : Subgraph) :
    (sub.pushChild child).groupNames = sub.groupNames ++ properNames child.labels := by
  rw [groupNames, labelsBelow_pushChild, properNames_append]
  rfl

theorem groupNames_sublist_labels (sub : Subgraph) : sub.groupNames.Sublist (properNames sub.labels) := by
  rw [labels_eq, ← List.singleton_append, properNames_append]
  exact List.sublist_append_right ..

theorem properNames_labels (sub : Subgraph) :
    properNames sub.labels = if sub.name = "" then sub.groupNames else sub.name :: sub.groupNames := by
  rw [labels_eq]
  unfold properNames groupNames
  rw [List.map_cons, List.filter_cons]
  by_cases h : sub.name = "" <;> simp [h, label, properNames]

theorem mem_memberNames_pushChild {name : String} {sub child : Subgraph} :
    name ∈ (sub.pushChild child).memberNames ↔ name ∈ sub.memberNames ∨ name ∈ child.memberNames := by
  rw [memberNames_cons, labelsBelow_pushChild, List.flatMap_append, ← List.append_assoc, List.mem_append,
    memberNames_cons sub]
  rfl

theorem Replaced.groupNames_perm {old new : List Label} {a b : Subgraph} (h : Replaced old new a b)
    (hl : b.name = a.name) {more : List String} (hp : b.groupNames.Perm (a.groupNames ++ more)) :
    (properNames new).Perm (properNames old ++ more) := by
  obtain ⟨before, after, rfl, rfl⟩ := h
  have hlabels : (properNames b.labels).Perm (properNames a.labels ++ more) := by
    rw [properNames_labels, properNames_labels, hl]
    split
    · exact hp
    · exact hp.cons _
  simp only [properNames_append, List.append_assoc]
  refine List.Perm.append_left _ ?_
  calc properNames b.labels ++ properNames after
      _ |>.Perm ((properNames a.labels ++ more) ++ properNames after) := hlabels.append_right _
      _ |>.Perm (properNames a.labels ++ (properNames after ++ more)) := by
        rw [List.append_assoc]
        exact List.perm_append_comm.append_left _

theorem Replaced.mem_members {old new : List Label} {a b : Subgraph} (h : Replaced old new a b) {name : String}
    {more : Prop} (hm : name ∈ b.memberNames ↔ name ∈ a.memberNames ∨ more) :
    (name ∈ new.flatMap fun label => label.2.2.names) ↔
      (name ∈ old.flatMap fun label => label.2.2.names) ∨ more := by
  obtain ⟨before, after, rfl, rfl⟩ := h
  simp only [List.flatMap_append, List.mem_append]
  rw [show (name ∈ b.labels.flatMap fun label => label.2.2.names) ↔ _ from hm]
  show (_ ∨ name ∈ a.memberNames ∨ more) ∨ _ ↔ ((_ ∨ name ∈ a.memberNames) ∨ _) ∨ _
  tauto

theorem Replaced.groupNames_sublist {old new : List Label} {a b : Subgraph} (h : Replaced old new a b) :
    a.groupNames.Sublist (properNames old) := by
  obtain ⟨before, after, rfl, -⟩ := h
  rw [properNames_append, properNames_append]
  exact ((groupNames_sublist_labels a).trans (List.sublist_append_right ..)).trans
    (List.sublist_append_left ..)

/-! ## Absorbing -/

theorem absorbChildren_of_fresh : ∀ {children : List Subgraph} {sub : Subgraph},
    (sub.groupNames ++ properNames (children.flatMap labels)).Nodup →
      absorbChildren sub children = { sub with children := sub.children ++ children }
  | [], ⟨_, _, _, _⟩, _ => by rw [absorbChildren, List.append_nil]
  | child :: rest, sub, h => by
    rw [List.flatMap_cons, properNames_append] at h
    have hn : sub.modify? child.name (fun group => group.absorb child) = none := by
      rw [modify?_eq_none]
      intro hm
      have hc : child.name ∈ properNames child.labels := by
        rw [properNames_labels, if_neg (mem_groupNames.1 hm).1]
        exact List.mem_cons_self ..
      exact (List.nodup_append.1 h).2.2 _ hm _ (List.mem_append_left _ hc) rfl
    have h' : ((sub.pushChild child).groupNames ++ properNames (rest.flatMap labels)).Nodup := by
      rwa [groupNames_pushChild, List.append_assoc]
    rw [absorbChildren]
    simp only [hn]
    rw [absorbChildren_of_fresh h']
    simp [pushChild]

theorem absorb_of_fresh {sub other : Subgraph} (h : (sub.groupNames ++ other.groupNames).Nodup) :
    sub.absorb other =
      { sub with
        attributes := sub.attributes.merge other.attributes
        nodes := sub.nodes.addAll other.nodes.toList
        children := sub.children ++ other.children } := by
  obtain ⟨name, attrs, nodes, children⟩ := other
  have h' : (Subgraph.groupNames ⟨sub.name, sub.attributes.merge attrs, sub.nodes.addAll nodes.toList,
      sub.children⟩ ++ properNames (children.flatMap labels)).Nodup := by
    rw [← labelsBelow_eq ⟨name, attrs, nodes, children⟩]
    exact h
  rw [absorb, absorbChildren_of_fresh h']

theorem groupNames_absorb {sub other : Subgraph} (h : (sub.groupNames ++ other.groupNames).Nodup) :
    (sub.absorb other).groupNames = sub.groupNames ++ other.groupNames := by
  rw [absorb_of_fresh h, groupNames, labelsBelow_of_children rfl, properNames_append, ← labelsBelow_eq,
    ← labelsBelow_eq]
  rfl

theorem mem_memberNames_absorb {sub other : Subgraph} (h : (sub.groupNames ++ other.groupNames).Nodup)
    {name : String} :
    name ∈ (sub.absorb other).memberNames ↔ name ∈ sub.memberNames ∨ name ∈ other.memberNames := by
  rw [absorb_of_fresh h, memberNames_cons, labelsBelow_of_children rfl, ← labelsBelow_eq, ← labelsBelow_eq,
    memberNames_cons sub, memberNames_cons other]
  simp only [List.flatMap_append, List.mem_append, NodeMap.mem_names_addAll]
  show ((_ ∨ name ∈ other.nodes.names) ∨ _) ↔ _
  tauto

theorem nodes_absorb {sub other : Subgraph} (h : (sub.groupNames ++ other.groupNames).Nodup) :
    (sub.absorb other).nodes = sub.nodes.addAll other.nodes.toList := by
  rw [absorb_of_fresh h]

theorem label_absorbChildren : ∀ (children : List Subgraph) (sub : Subgraph),
    (sub.absorbChildren children).label = sub.label
  | [], sub => by rw [absorbChildren]
  | child :: rest, sub => by
    rw [absorbChildren]
    split
    · rename_i merged hm
      rw [label_absorbChildren rest]
      exact (modify?_eq_some hm).2.1
    · exact label_absorbChildren rest _

theorem label_absorb (sub other : Subgraph) :
    (sub.absorb other).label =
      (sub.name, sub.attributes.merge other.attributes, sub.nodes.addAll other.nodes.toList) := by
  obtain ⟨name, attrs, nodes, children⟩ := other
  rw [absorb, label_absorbChildren]
  rfl

theorem name_absorb (sub other : Subgraph) : (sub.absorb other).name = sub.name :=
  congrArg Prod.fst (label_absorb sub other)

theorem modify?_absorb {tree sub result : Subgraph}
    (h : tree.modify? sub.name (fun group => group.absorb sub) = some result)
    (hf : (tree.groupNames ++ sub.groupNames).Nodup) :
    result.label = tree.label ∧ result.groupNames.Perm (tree.groupNames ++ sub.groupNames) ∧
      ∀ name, name ∈ result.memberNames ↔ name ∈ tree.memberNames ∨ name ∈ sub.memberNames := by
  obtain ⟨-, hl, group, -, -, hr⟩ := modify?_eq_some h
  have hg : (group.groupNames ++ sub.groupNames).Nodup := hf.sublist (hr.groupNames_sublist.append_right _)
  refine ⟨hl, hr.groupNames_perm (name_absorb ..) (by rw [groupNames_absorb hg]), fun name => ?_⟩
  have hn : result.nodes = tree.nodes := congrArg (fun label => label.2.2) hl
  rw [memberNames_cons, List.mem_append, hr.mem_members (mem_memberNames_absorb hg), hn,
    memberNames_cons tree, List.mem_append]
  tauto

/-! ## Attaching -/

/-- With the new nodes in its root, a tree has the newcomer absorbed, or pushed at the root or below its parent. -/
theorem attachUnder_eq_some {tree newcomer result : Subgraph} {parent : Option String}
    (h : tree.attachUnder parent newcomer = some result) :
    ∃ root : Subgraph, root = { tree with nodes := tree.nodes.addAll newcomer.allNodes } ∧
      (root.modify? newcomer.name (fun group => group.absorb newcomer) = some result ∨
        newcomer.name ∉ tree.groupNames ∧
          (parent = none ∧ result = root.pushChild newcomer ∨
            ∃ name, parent = some name ∧ root.modify? name (fun group => group.pushChild newcomer) = some result)) := by
  refine ⟨_, rfl, ?_⟩
  unfold attachUnder at h
  split at h
  · dsimp only at h
    split at h
    · rename_i merged hm
      exact Or.inl (hm.trans h)
    · rename_i hm
      have hnew : newcomer.name ∉
          Subgraph.groupNames { tree with nodes := tree.nodes.addAll newcomer.allNodes } := modify?_eq_none.1 hm
      refine Or.inr ⟨hnew, ?_⟩
      split at h
      · exact Or.inl ⟨rfl, (Option.some.inj h).symm⟩
      · exact Or.inr ⟨_, rfl, h⟩
  · cases h

theorem attachUnder_none (sub newcomer : Subgraph) : sub.attachUnder none newcomer = some (sub.attach newcomer) := by
  have h : (sub.attachUnder none newcomer).isSome = true := by
    unfold attachUnder
    rw [Option.all_none, if_pos rfl]
    dsimp only
    split <;> rfl
  obtain ⟨result, hr⟩ := Option.isSome_iff_exists.1 h
  rw [attach, hr]
  rfl

/-! ## Attaching at the root -/

/-- The group with another below it, and the nodes of that among its own. -/
def adopt (sub newcomer : Subgraph) : Subgraph :=
  { sub with nodes := sub.nodes.addAll newcomer.allNodes, children := sub.children ++ [newcomer] }

theorem attach_of_unused {sub newcomer : Subgraph} (h : newcomer.name ∉ sub.groupNames) :
    sub.attach newcomer = sub.adopt newcomer := by
  let root : Subgraph := { sub with nodes := sub.nodes.addAll newcomer.allNodes }
  have hm : root.modify? newcomer.name (fun group => group.absorb newcomer) = none :=
    modify?_eq_none.2 (show newcomer.name ∉ root.groupNames from h)
  unfold attach attachUnder
  simp only [Option.all_none, if_true]
  rw [show root.modify? newcomer.name (fun group => group.absorb newcomer) = none from hm]
  rfl

theorem attach_of_fresh {tree sub : Subgraph} (hf : (tree.groupNames ++ sub.groupNames).Nodup) :
    (tree.attach sub).label = (tree.name, tree.attributes, tree.nodes.addAll sub.allNodes) ∧
      (∀ name, name ∈ (tree.attach sub).memberNames ↔ name ∈ tree.memberNames ∨ name ∈ sub.memberNames) ∧
      (sub.name ∈ tree.groupNames ∧ (tree.attach sub).groupNames.Perm (tree.groupNames ++ sub.groupNames) ∨
        sub.name ∉ tree.groupNames ∧
          (tree.attach sub).groupNames = tree.groupNames ++ properNames sub.labels) := by
  obtain ⟨root, hroot, hm⟩ := attachUnder_eq_some (attachUnder_none tree sub)
  have hlabel : root.label = (tree.name, tree.attributes, tree.nodes.addAll sub.allNodes) := by rw [hroot]; rfl
  have hnames : root.groupNames = tree.groupNames := by rw [hroot]; rfl
  have hmembers : ∀ name, name ∈ root.memberNames ↔ name ∈ tree.memberNames ∨ name ∈ sub.memberNames := by
    intro name
    rw [memberNames_cons, memberNames_cons tree, memberNames_eq sub]
    simp only [List.mem_append]
    rw [hroot, NodeMap.mem_names_addAll]
    exact or_right_comm
  rcases hm with hm | ⟨hnew, ⟨-, ha⟩ | ⟨_, hp, -⟩⟩
  · obtain ⟨hl, hp, hmem⟩ := modify?_absorb hm (by rwa [hnames])
    obtain ⟨hne, -, group, hg, hn, -⟩ := modify?_eq_some hm
    refine ⟨hl.trans hlabel, fun name => ?_, Or.inl ⟨?_, hnames ▸ hp⟩⟩
    · rw [hmem, hmembers, or_assoc, or_self]
    · rw [← hnames]
      exact mem_groupNames.2 ⟨hne, group, hg, hn⟩
  · rw [ha]
    refine ⟨hlabel, fun name => ?_, Or.inr ⟨hnew, ?_⟩⟩
    · rw [mem_memberNames_pushChild, hmembers, or_assoc, or_self]
    · rw [groupNames_pushChild, hnames]
  · cases hp

end DotLang.Subgraph
