import DotLang.Proofs.Merging

/-!
# What attaching keeps

Whatever names clash, a tree that takes in another loses nothing: each of its groups stays at its place, with
its attributes and nodes and perhaps more. And what comes in is there afterwards: each group of the newcomer has
its nodes in a group of its name, and no group without a name is dropped or made up.
-/

namespace DotLang

namespace Subgraph

/-! ## A group that has what another has -/

/-- A group with all that another of its name has: the attributes, the nodes, and their attributes. -/
structure Covers (a b : Label) : Prop where
  name : b.1 = a.1
  attributes : a.2.1.names ⊆ b.2.1.names
  nodes : a.2.2.names ⊆ b.2.2.names
  inside : ∀ node, (a.2.2.attrsOf node).names ⊆ (b.2.2.attrsOf node).names

theorem Covers.refl (a : Label) : Covers a a := ⟨rfl, fun _ h => h, fun _ h => h, fun _ _ h => h⟩

theorem Covers.trans {a b c : Label} (h : Covers a b) (h' : Covers b c) : Covers a c where
  name := h'.name.trans h.name
  attributes _ hk := h'.attributes (h.attributes hk)
  nodes _ hn := h'.nodes (h.nodes hn)
  inside node _ hk := h'.inside node (h.inside node hk)

theorem covers_addAll (a : Label) (attrs : Attributes) (new : List Node) :
    Covers a (a.1, a.2.1.merge attrs, a.2.2.addAll new) where
  name := rfl
  attributes _ h := Attributes.mem_names_merge.2 (Or.inl h)
  nodes _ h := NodeMap.mem_names_addAll.2 (Or.inl h)
  inside _ _ h := NodeMap.mem_attrsOf_addAll.2 (Or.inl h)

theorem covers_of_addAll {a b : Label} (h : a.1 = b.1) :
    Covers b (a.1, a.2.1.merge b.2.1, a.2.2.addAll b.2.2.toList) where
  name := h
  attributes _ h := Attributes.mem_names_merge.2 (Or.inr h)
  nodes _ h := NodeMap.mem_names_addAll.2 (Or.inr h)
  inside name key hk := by
    apply NodeMap.mem_attrsOf_addAll.2
    by_cases hm : name ∈ b.2.2.names
    · obtain ⟨node, hn, rfl⟩ := List.mem_map.1 hm
      rw [NodeMap.attrsOf, NodeMap.get?_of_mem hn] at hk
      exact Or.inr ⟨node, hn, rfl, hk⟩
    · rw [NodeMap.attrsOf_of_not_mem hm] at hk
      cases hk

/-! ## Groups that stay at their places -/

/-- The group at a place: from the root on, which child of each group to go to. -/
def at? : List Nat → Subgraph → Option Subgraph
  | [], sub => some sub
  | i :: path, sub => sub.children[i]?.bind (at? path)

theorem at?_cons {i : Nat} {path : List Nat} {sub group : Subgraph} :
    at? (i :: path) sub = some group ↔ ∃ child, sub.children[i]? = some child ∧ at? path child = some group :=
  Option.bind_eq_some_iff

mutual
theorem exists_at? : ∀ {sub group : Subgraph}, group ∈ sub.hierarchy → ∃ path, at? path sub = some group
  | ⟨name, attrs, nodes, children⟩, group, h => by
    rw [hierarchy_eq, List.mem_cons] at h
    rcases h with rfl | h
    · exact ⟨[], rfl⟩
    · obtain ⟨i, child, path, hi, hp⟩ := exists_at?_all h
      exact ⟨i :: path, at?_cons.2 ⟨child, hi, hp⟩⟩

theorem exists_at?_all : ∀ {subs : List Subgraph} {group : Subgraph}, group ∈ subs.flatMap hierarchy →
    ∃ (i : Nat) (child : Subgraph) (path : List Nat), subs[i]? = some child ∧ at? path child = some group
  | [], group, h => absurd h List.not_mem_nil
  | child :: rest, group, h => by
    rw [List.flatMap_cons, List.mem_append] at h
    rcases h with h | h
    · obtain ⟨path, hp⟩ := exists_at? h
      exact ⟨0, child, path, rfl, hp⟩
    · obtain ⟨i, found, path, hi, hp⟩ := exists_at?_all h
      exact ⟨i + 1, found, path, hi, hp⟩
end

/-- The places in a tree are those of the groups in its hierarchy. -/
theorem mem_hierarchy_iff_at? {sub group : Subgraph} : group ∈ sub.hierarchy ↔ ∃ path, at? path sub = some group := by
  constructor
  · exact exists_at?
  · rintro ⟨path, hp⟩
    induction path generalizing sub with
    | nil =>
      obtain rfl := Option.some.inj hp
      exact self_mem_hierarchy sub
    | cons i path ih =>
      obtain ⟨child, hi, hp⟩ := at?_cons.1 hp
      rw [hierarchy_eq]
      exact List.mem_cons_of_mem _ (List.mem_flatMap.2 ⟨child, List.mem_of_getElem? hi, ih hp⟩)

/-- Every group of a tree is still at its place, with all it had. -/
def Retained (a b : Subgraph) : Prop :=
  ∀ path group, at? path a = some group → ∃ found, at? path b = some found ∧ Covers group.label found.label

def RetainedAll (a b : List Subgraph) : Prop :=
  ∀ (i : Nat) (sub : Subgraph), a[i]? = some sub → ∃ found, b[i]? = some found ∧ Retained sub found

theorem Retained.refl (a : Subgraph) : Retained a a := fun _ group h => ⟨group, h, Covers.refl _⟩

theorem Retained.trans {a b c : Subgraph} (h : Retained a b) (h' : Retained b c) : Retained a c := by
  intro path group hg
  obtain ⟨found, hf, hc⟩ := h path group hg
  obtain ⟨last, hl, hc'⟩ := h' path found hf
  exact ⟨last, hl, hc.trans hc'⟩

theorem Retained.of_children {a b : Subgraph} (hl : Covers a.label b.label) (hc : RetainedAll a.children b.children) :
    Retained a b := by
  intro path group hg
  cases path with
  | nil =>
    obtain rfl := Option.some.inj hg
    exact ⟨b, rfl, hl⟩
  | cons i path =>
    obtain ⟨child, hi, hg⟩ := at?_cons.1 hg
    obtain ⟨child', hi', hr⟩ := hc i child hi
    obtain ⟨found, hf, hcov⟩ := hr path group hg
    exact ⟨found, at?_cons.2 ⟨child', hi', hf⟩, hcov⟩

theorem RetainedAll.refl (a : List Subgraph) : RetainedAll a a := fun _ sub h => ⟨sub, h, Retained.refl sub⟩

theorem RetainedAll.cons {sub found : Subgraph} {a b : List Subgraph} (h : Retained sub found) (hr : RetainedAll a b) :
    RetainedAll (sub :: a) (found :: b) := by
  intro i other hi
  cases i with
  | zero =>
    obtain rfl := Option.some.inj hi
    exact ⟨found, rfl, h⟩
  | succ i => exact hr i other hi

theorem RetainedAll.append (a more : List Subgraph) : RetainedAll a (a ++ more) := by
  intro i sub hi
  have hlt : i < a.length := (List.getElem?_eq_some_iff.1 hi).1
  exact ⟨sub, by rw [List.getElem?_append_left hlt, hi], Retained.refl sub⟩

theorem retained_pushChild (sub child : Subgraph) : Retained sub (sub.pushChild child) :=
  .of_children (.refl _) (RetainedAll.append sub.children [child])

section
variable {name : String} {f : Subgraph → Subgraph}

mutual
theorem modifyBelow?_retained (hf : ∀ group, Retained group (f group)) : ∀ {sub result : Subgraph},
    modifyBelow? name f sub = some result → Retained sub result
  | ⟨own, attrs, nodes, children⟩, result, h => by
    rw [modifyBelow?] at h
    obtain ⟨children', hc, rfl⟩ := Option.map_eq_some_iff.1 h
    exact .of_children (.refl _) (modifyFirst?_retained hf hc)

theorem modifyFirst?_retained (hf : ∀ group, Retained group (f group)) : ∀ {subs result : List Subgraph},
    modifyFirst? name f subs = some result → RetainedAll subs result
  | [], _, h => by rw [modifyFirst?] at h; cases h
  | child :: rest, result, h => by
    rw [modifyFirst?] at h
    split at h
    · obtain rfl := Option.some.inj h
      exact .cons (hf child) (.refl rest)
    · split at h
      · rename_i child' hc
        obtain rfl := Option.some.inj h
        exact .cons (modifyBelow?_retained hf hc) (.refl rest)
      · obtain ⟨rest', hr, rfl⟩ := Option.map_eq_some_iff.1 h
        exact .cons (.refl child) (modifyFirst?_retained hf hr)
end

theorem modify?_retained (hf : ∀ group, Retained group (f group)) {sub result : Subgraph}
    (h : sub.modify? name f = some result) : Retained sub result := by
  unfold modify? at h
  split at h
  · cases h
  · exact modifyBelow?_retained hf h

end

mutual
theorem retained_absorb : ∀ (other sub : Subgraph), Retained sub (sub.absorb other)
  | ⟨_, attrs, nodes, children⟩, sub => by
    rw [absorb]
    have hown : Retained sub ⟨sub.name, sub.attributes.merge attrs, sub.nodes.addAll nodes.toList, sub.children⟩ :=
      .of_children (covers_addAll sub.label attrs nodes.toList) (.refl _)
    exact hown.trans (retained_absorbChildren children _)

theorem retained_absorbChildren : ∀ (children : List Subgraph) (sub : Subgraph),
    Retained sub (sub.absorbChildren children)
  | [], sub => by
    rw [absorbChildren]
    exact .refl sub
  | child :: rest, sub => by
    rw [absorbChildren]
    split
    · rename_i merged hm
      exact .trans (modify?_retained (retained_absorb child) hm) (retained_absorbChildren rest merged)
    · exact .trans (retained_pushChild sub child) (retained_absorbChildren rest _)
end

/-! ## Labels that come together -/

/-- All labels are there, in labels that cover them, and nothing else is: no other name, and as many groups
without one. -/
structure Gathers (all result : List Label) : Prop where
  covered : ∀ label ∈ all, ∃ found ∈ result, Covers label found
  named : ∀ label ∈ result, ∃ old ∈ all, old.1 = label.1
  anonymous : result.countP (·.1.isEmpty) = all.countP (·.1.isEmpty)

theorem Gathers.of_perm {all result : List Label} (h : result.Perm all) : Gathers all result where
  covered label hl := ⟨label, h.mem_iff.2 hl, .refl label⟩
  named label hl := ⟨label, h.mem_iff.1 hl, rfl⟩
  anonymous := h.countP_eq _

theorem Gathers.trans {a b c : List Label} (h : Gathers a b) (h' : Gathers b c) : Gathers a c where
  covered label hl := by
    obtain ⟨found, hf, hc⟩ := h.covered label hl
    obtain ⟨last, hm, hc'⟩ := h'.covered found hf
    exact ⟨last, hm, hc.trans hc'⟩
  named label hl := by
    obtain ⟨found, hf, he⟩ := h'.named label hl
    obtain ⟨old, ho, he'⟩ := h.named found hf
    exact ⟨old, ho, he'.trans he⟩
  anonymous := h'.anonymous.trans h.anonymous

theorem Gathers.append {a b c d : List Label} (h : Gathers a b) (h' : Gathers c d) : Gathers (a ++ c) (b ++ d) where
  covered label hl := by
    rcases List.mem_append.1 hl with hl | hl
    · obtain ⟨found, hf, hc⟩ := h.covered label hl
      exact ⟨found, List.mem_append_left _ hf, hc⟩
    · obtain ⟨found, hf, hc⟩ := h'.covered label hl
      exact ⟨found, List.mem_append_right _ hf, hc⟩
  named label hl := by
    rcases List.mem_append.1 hl with hl | hl
    · obtain ⟨old, ho, he⟩ := h.named label hl
      exact ⟨old, List.mem_append_left _ ho, he⟩
    · obtain ⟨old, ho, he⟩ := h'.named label hl
      exact ⟨old, List.mem_append_right _ ho, he⟩
  anonymous := by rw [List.countP_append, List.countP_append, h.anonymous, h'.anonymous]

theorem Gathers.mem_properNames {all result : List Label} (h : Gathers all result) {name : String} :
    name ∈ properNames result ↔ name ∈ properNames all := by
  rw [Subgraph.mem_properNames, Subgraph.mem_properNames]
  refine and_congr_right fun _ => ?_
  constructor
  · rintro ⟨label, hl, rfl⟩
    exact h.named label hl
  · rintro ⟨label, hl, rfl⟩
    obtain ⟨found, hf, hc⟩ := h.covered label hl
    exact ⟨found, hf, hc.name⟩

theorem gathers_merge {a b : Label} (h : a.1 = b.1) (hn : a.1 ≠ "") :
    Gathers [a, b] [(a.1, a.2.1.merge b.2.1, a.2.2.addAll b.2.2.toList)] where
  covered label hl := by
    refine ⟨_, List.mem_singleton_self _, ?_⟩
    rcases List.mem_pair.1 hl with rfl | rfl
    · exact covers_addAll ..
    · exact covers_of_addAll h
  named label hl := by
    obtain rfl := List.mem_singleton.1 hl
    exact ⟨a, List.mem_cons_self .., rfl⟩
  anonymous := by
    have ha : a.1.isEmpty = false := by simpa using hn
    have hb : b.1.isEmpty = false := h ▸ ha
    simp [ha, hb]

theorem Gathers.replaced {old new more : List Label} {a b : Subgraph} (h : Replaced old new a b)
    (hg : Gathers (a.labels ++ more) b.labels) : Gathers (old ++ more) new := by
  obtain ⟨before, after, rfl, rfl⟩ := h
  have hp : (before ++ (a.labels ++ more) ++ after).Perm (before ++ a.labels ++ after ++ more) := by
    simp only [List.append_assoc]
    exact ((List.perm_append_comm.append_left _).append_left _)
  exact (Gathers.of_perm hp).trans (((Gathers.of_perm (.refl before)).append hg).append (.of_perm (.refl after)))

theorem gathers_pushChild (sub child : Subgraph) :
    Gathers (sub.labelsBelow ++ child.labels) (sub.pushChild child).labelsBelow := by
  rw [labelsBelow_pushChild]
  exact .of_perm (.refl _)

theorem gathers_absorb_labels {sub other : Subgraph} (h : sub.name = other.name) (hn : sub.name ≠ "")
    (hb : Gathers (sub.labelsBelow ++ other.labelsBelow) (sub.absorb other).labelsBelow) :
    Gathers (sub.labels ++ other.labels) (sub.absorb other).labels := by
  rw [labels_eq, labels_eq other, labels_eq (sub.absorb other), label_absorb]
  have hp : ([sub.label, other.label] ++ (sub.labelsBelow ++ other.labelsBelow)).Perm
      (sub.label :: sub.labelsBelow ++ other.label :: other.labelsBelow) := by
    simp only [List.cons_append, List.nil_append]
    exact List.perm_middle.symm.cons _
  exact (Gathers.of_perm hp).trans ((@gathers_merge sub.label other.label h hn).append hb)

mutual
theorem gathers_absorb : ∀ {other sub : Subgraph},
    Gathers (sub.labelsBelow ++ other.labelsBelow) (sub.absorb other).labelsBelow
  | ⟨name, attrs, nodes, children⟩, sub => by
    rw [absorb, labelsBelow_eq ⟨name, attrs, nodes, children⟩]
    let own : Subgraph := ⟨sub.name, sub.attributes.merge attrs, sub.nodes.addAll nodes.toList, sub.children⟩
    exact @gathers_absorbChildren children own

theorem gathers_absorbChildren : ∀ {children : List Subgraph} {sub : Subgraph},
    Gathers (sub.labelsBelow ++ children.flatMap labels) (sub.absorbChildren children).labelsBelow
  | [], sub => by
    rw [absorbChildren, List.flatMap_nil, List.append_nil]
    exact .of_perm (.refl _)
  | child :: rest, sub => by
    -- Whatever the first child has made of the group, it has gathered the child, and the rest goes on from there.
    have key {next : Subgraph} (h : Gathers (sub.labelsBelow ++ child.labels) next.labelsBelow) :
        Gathers (sub.labelsBelow ++ (child :: rest).flatMap labels) (next.absorbChildren rest).labelsBelow := by
      rw [List.flatMap_cons, ← List.append_assoc]
      exact (h.append (.of_perm (.refl _))).trans gathers_absorbChildren
    rw [absorbChildren]
    split
    · rename_i merged hm
      obtain ⟨hne, -, group, -, hn, hr⟩ := modify?_eq_some hm
      exact key (.replaced hr (gathers_absorb_labels hn (hn ▸ hne) gathers_absorb))
    · exact key (gathers_pushChild sub child)
end

/-! ## A tree that takes in another -/

theorem retained_attachUnder {tree newcomer result : Subgraph} {parent : Option String}
    (h : tree.attachUnder parent newcomer = some result) : Retained tree result := by
  obtain ⟨root, rfl, hm⟩ := attachUnder_eq_some h
  have hroot : Retained tree { tree with nodes := tree.nodes.addAll newcomer.allNodes } :=
    .of_children (covers_addAll tree.label ∅ newcomer.allNodes) (.refl _)
  apply hroot.trans
  rcases hm with hm | ⟨-, ⟨-, rfl⟩ | ⟨name, -, hm⟩⟩
  · exact modify?_retained (retained_absorb newcomer) hm
  · exact retained_pushChild _ newcomer
  · exact modify?_retained (fun group => retained_pushChild group newcomer) hm

theorem gathers_attachUnder {tree newcomer result : Subgraph} {parent : Option String}
    (h : tree.attachUnder parent newcomer = some result) :
    Gathers (tree.labelsBelow ++ newcomer.labels) result.labelsBelow := by
  obtain ⟨root, hroot, hm⟩ := attachUnder_eq_some h
  have hbelow : tree.labelsBelow = root.labelsBelow := by rw [hroot]; rfl
  rw [hbelow]
  rcases hm with hm | ⟨-, ⟨-, rfl⟩ | ⟨name, -, hm⟩⟩
  · obtain ⟨hne, -, group, -, hn, hr⟩ := modify?_eq_some hm
    exact .replaced hr (gathers_absorb_labels hn (hn ▸ hne) gathers_absorb)
  · exact gathers_pushChild ..
  · obtain ⟨-, -, group, -, -, hr⟩ := modify?_eq_some hm
    apply Gathers.replaced hr
    rw [labels_eq group, labels_eq (group.pushChild newcomer)]
    exact (Gathers.of_perm (.refl [group.label])).append (gathers_pushChild ..)

/-! ## Attaching in place -/

/-- Attaches a tree step by step in the tree itself; gives whether the parent was there, and what the tree is now. -/
def attachInPlace (tree : Subgraph) (parent : Option String) (newcomer : Subgraph) : Bool × Subgraph :=
  if parent.any fun name => (tree.find? name).isNone then (false, tree)
  else
    let root := { tree with
      nodes := newcomer.hierarchy.foldl (fun nodes (group : Subgraph) => nodes.addAll group.nodes.toList) tree.nodes }
    match root.modify? newcomer.name fun group => group.absorb newcomer with
    | some merged => (true, merged)
    | none =>
      match parent with
      | none => (true, root.pushChild newcomer)
      | some name =>
        match root.modify? name fun group => group.pushChild newcomer with
        | some result => (true, result)
        | none => (false, root)

theorem attachUnder_eq_none {tree newcomer : Subgraph} {parent : Option String} :
    tree.attachUnder parent newcomer = none ↔ ∃ name, parent = some name ∧ tree.find? name = none := by
  cases parent with
  | none => simp [attachUnder_none]
  | some name =>
    by_cases h : name ∈ tree.groupNames
    · obtain ⟨result, hr⟩ := exists_attachUnder newcomer h
      simp [hr, find?_eq_none, h]
    · have hn := find?_eq_none.2 h
      simp [attachUnder, hn]

theorem attachInPlace_eq (tree : Subgraph) (parent : Option String) (newcomer : Subgraph) :
    tree.attachInPlace parent newcomer =
      ((tree.attachUnder parent newcomer).isSome, (tree.attachUnder parent newcomer).getD tree) := by
  by_cases h : ∃ name, parent = some name ∧ tree.find? name = none
  · rw [attachUnder_eq_none.2 h]
    obtain ⟨name, rfl, hn⟩ := h
    simp [attachInPlace, hn]
  · have hfound : ∀ name, parent = some name → name ∈ tree.groupNames := by
      intro name hp
      by_contra hn
      exact h ⟨name, hp, find?_eq_none.2 hn⟩
    have hnodes :
        newcomer.hierarchy.foldl (fun nodes (group : Subgraph) => nodes.addAll group.nodes.toList) tree.nodes =
          tree.nodes.addAll newcomer.allNodes := List.foldl_flatMap.symm
    unfold attachInPlace attachUnder
    rw [hnodes]
    generalize hroot : ({ tree with nodes := tree.nodes.addAll newcomer.allNodes } : Subgraph) = root
    have hnames : root.groupNames = tree.groupNames := by
      rw [← hroot]
      rfl
    cases parent with
    | none =>
      simp only [Option.any_none, Option.all_none, Bool.false_eq_true, if_false, if_true]
      cases root.modify? newcomer.name fun group => group.absorb newcomer <;> rfl
    | some name =>
      have hname := hfound name rfl
      have hsome := find?_isSome.2 hname
      simp only [Option.any_some, Option.all_some, hsome, ← Option.not_isSome, Bool.not_true, Bool.false_eq_true,
        if_false, if_true]
      cases root.modify? newcomer.name fun group => group.absorb newcomer with
      | some merged => rfl
      | none =>
        cases hp : root.modify? name fun group => group.pushChild newcomer with
        | some result => rfl
        | none =>
          -- The parent was found before nodes came into the root, and they change no group below it.
          exact absurd (hnames ▸ hname) (modify?_eq_none.1 hp)

/-- A tree after it took in another: the root with all nodes in turn, the groups at their places, and the newcomer
among them. -/
structure TookIn (tree newcomer result : Subgraph) : Prop where
  name : result.name = tree.name
  attributes : result.attributes = tree.attributes
  nodes : result.nodes.toList = NodeMap.declareAll tree.nodes.toList newcomer.allNodes
  kept : Retained tree result
  names : ∀ name, name ∈ result.groupNames ↔ name ∈ tree.groupNames ∨ name ∈ properNames newcomer.labels
  anonymous : result.descendants.countP isAnonymous =
    tree.descendants.countP isAnonymous + newcomer.hierarchy.countP isAnonymous
  arrived : ∀ group ∈ newcomer.hierarchy, ∃ found ∈ result.descendants, Covers group.label found.label

theorem tookIn_attachUnder {tree newcomer result : Subgraph} {parent : Option String}
    (h : tree.attachUnder parent newcomer = some result) : TookIn tree newcomer result := by
  have hg := gathers_attachUnder h
  refine ⟨congrArg (·.1) (label_attachUnder h), congrArg (·.2.1) (label_attachUnder h), ?_, retained_attachUnder h,
    ?_, ?_, ?_⟩
  · rw [nodes_attachUnder h, NodeMap.toList_addAll]
  · intro name
    rw [groupNames, hg.mem_properNames, properNames_append, List.mem_append]
    rfl
  · have hc := hg.anonymous
    rw [List.countP_append, labelsBelow, labelsBelow, labels, List.countP_map, List.countP_map, List.countP_map] at hc
    exact hc
  · intro group hgroup
    obtain ⟨label, hl, hc⟩ := hg.covered group.label (List.mem_append_right _ (List.mem_map_of_mem hgroup))
    obtain ⟨found, hf, rfl⟩ := List.mem_map.1 hl
    exact ⟨found, hf, hc⟩

/-- Attaching is refused exactly if there is to be a parent that is not found, and then nothing is changed. Else
nothing is lost, of what was there and of what comes in. -/
theorem attachInPlace_lossless (tree : Subgraph) (parent : Option String) (newcomer : Subgraph) :
    ((tree.attachInPlace parent newcomer).1 = false ↔ ∃ name, parent = some name ∧ tree.find? name = none) ∧
      match tree.attachInPlace parent newcomer with
      | (false, result) => result = tree ∧ tree.attachUnder parent newcomer = none
      | (true, result) => TookIn tree newcomer result ∧ tree.attachUnder parent newcomer = some result := by
  rw [attachInPlace_eq, ← attachUnder_eq_none]
  cases h : tree.attachUnder parent newcomer with
  | none => simp
  | some result => simpa using tookIn_attachUnder h

end Subgraph

end DotLang
