import DotLang.Proofs.Places

/-!
# Searching a tree of groups

Looking for a name and changing the group of a name are written apart, the one along the walk of the whole tree, the
other from child to child. Both come to the same group, the first one below the root, and so what a change has made
of it is found next, if it still has the name.
-/

namespace DotLang.Subgraph

section
variable {name : String} {f : Subgraph → Subgraph}

/-! ## What a change is made of, and what is found behind it -/

mutual
theorem modifyBelow?_finds : ∀ {sub result : Subgraph}, modifyBelow? name f sub = some result →
    result.name = sub.name ∧ ∃ group, sub.descendants.find? (fun group => group.name == name) = some group ∧
      ((f group).name = name → result.descendants.find? (fun group => group.name == name) = some (f group))
  | ⟨own, attrs, nodes, children⟩, result, h => by
    rw [modifyBelow?] at h
    obtain ⟨children', hc, rfl⟩ := Option.map_eq_some_iff.1 h
    exact ⟨rfl, modifyFirst?_finds hc⟩

theorem modifyFirst?_finds : ∀ {subs result : List Subgraph}, modifyFirst? name f subs = some result →
    ∃ group, (subs.flatMap hierarchy).find? (fun group => group.name == name) = some group ∧
      ((f group).name = name → (result.flatMap hierarchy).find? (fun group => group.name == name) = some (f group))
  | [], _, h => by rw [modifyFirst?] at h; cases h
  | child :: rest, result, h => by
    rw [modifyFirst?] at h
    rw [List.flatMap_cons, hierarchy_eq, List.cons_append, List.find?_cons]
    split at h
    · rename_i hn
      obtain rfl := Option.some.inj h
      refine ⟨child, by rw [beq_iff_eq.2 hn], fun hf => ?_⟩
      rw [List.flatMap_cons, hierarchy_eq, List.cons_append, List.find?_cons, beq_iff_eq.2 hf]
    · rename_i hn
      rw [beq_eq_false_iff_ne.2 hn, List.find?_append]
      split at h
      · rename_i child' hc
        obtain rfl := Option.some.inj h
        obtain ⟨hl, group, hg, hk⟩ := modifyBelow?_finds hc
        refine ⟨group, by rw [hg]; rfl, fun hf => ?_⟩
        rw [List.flatMap_cons, hierarchy_eq, List.cons_append, List.find?_cons, hl, beq_eq_false_iff_ne.2 hn,
          List.find?_append, hk hf]
        rfl
      · rename_i hc
        obtain ⟨rest', hr, rfl⟩ := Option.map_eq_some_iff.1 h
        have hbelow : child.descendants.find? (fun group => group.name == name) = none :=
          List.find?_eq_none.2 fun group hg => by simpa using modifyBelow?_eq_none hc group hg
        obtain ⟨group, hg, hk⟩ := modifyFirst?_finds hr
        refine ⟨group, by rw [hbelow]; exact hg, fun hf => ?_⟩
        rw [List.flatMap_cons, hierarchy_eq, List.cons_append, List.find?_cons, beq_eq_false_iff_ne.2 hn,
          List.find?_append, hbelow]
        exact hk hf
end

theorem modify?_finds {sub result : Subgraph} (h : sub.modify? name f = some result) :
    ∃ group, sub.find? name = some group ∧ ((f group).name = name → result.find? name = some (f group)) := by
  unfold modify? at h
  unfold find?
  split at h
  · cases h
  · rename_i hn
    rw [if_neg hn, if_neg hn, tail_hierarchy, tail_hierarchy]
    exact (modifyBelow?_finds h).2

end

/-! ## One order -/

/-- The walk over a stack and the recursion over the tree come to the same groups, each once. -/
structure Walked (sub : Subgraph) : Prop where
  recursive : sub.hierarchy = sub :: sub.children.flatMap hierarchy
  inOrder : sub.hierarchy.map some = sub.places.map fun path => at? path sub
  once : sub.places.Nodup
  all : ∀ path, path ∈ sub.places ↔ (at? path sub).isSome = true

theorem walked (sub : Subgraph) : Walked sub where
  recursive := hierarchy_eq sub
  inOrder := (map_at?_places sub).symm
  once := nodup_places sub
  all _ := mem_places

/-- What a search for a name comes to at a place: the group is found there, a change is made there, and what it has
become is found next if it keeps the name. -/
structure SearchEnds (sub : Subgraph) (name : String) (path : List Nat) : Prop where
  below : path ≠ []
  found : ∃ group, at? path sub = some group ∧ group.name = name ∧ sub.find? name = some group
  changed : ∀ f, ∃ result, sub.modify? name f = some result ∧ ChangedAt f path sub result ∧
    ∀ group, at? path sub = some group → (f group).name = name → result.find? name = some (f group)

theorem searchEnds_of_firstPlace? {sub : Subgraph} {name : String} {path : List Nat}
    (h : sub.firstPlace? name = some path) : SearchEnds sub name path := by
  obtain ⟨hbelow, group, hg, hn⟩ := firstPlace?_eq_some h
  have hfind : sub.find? name = some group := by rw [find?_eq_firstPlace?, h]; exact hg
  refine ⟨hbelow, ⟨group, hg, hn, hfind⟩, fun f => ?_⟩
  have hm : sub.modify? name f = some (modifyAt f path sub) := by rw [modify?_eq_firstPlace?, h]; rfl
  obtain ⟨other, ho, hnext⟩ := modify?_finds hm
  obtain rfl : other = group := Option.some.inj (ho.symm.trans hfind)
  refine ⟨_, hm, changedAt_modifyAt f path sub, fun again ha hname => ?_⟩
  obtain rfl : again = other := Option.some.inj (ha.symm.trans hg)
  exact hnext hname

/-- Every search of a tree goes along one walk, on which each group comes once and each name of a node is kept where
it comes first. A name is found, or changed, at its first place below the root, and not at all if it has none. -/
theorem searches_agree (sub : Subgraph) :
    Walked sub ∧ FirstSeen (sub.hierarchy.flatMap fun group => group.nodes.names) sub.nodeNames ∧
      ∀ name, match sub.firstPlace? name with
        | none => sub.find? name = none ∧ ∀ f, sub.modify? name f = none
        | some path => SearchEnds sub name path := by
  refine ⟨walked sub, ?_, fun name => ?_⟩
  · have hnames : (sub.hierarchy.flatMap fun group => group.nodes.names) = sub.allNodes.map Node.name := by
      rw [allNodes, List.map_flatMap]
      rfl
    rw [hnames]
    exact firstSeen_eraseDups _
  · cases h : sub.firstPlace? name with
    | none =>
      refine ⟨?_, fun f => ?_⟩
      · rw [find?_eq_firstPlace?, h]
        rfl
      · rw [modify?_eq_firstPlace?, h]
        rfl
    | some path => exact searchEnds_of_firstPlace? h

/-- Of two groups of a name the one further down comes first. It is changed, and it is what is found then. -/
theorem searches_agree_repeated :
    let deep := (new "s").addNode "x" ∅
    let tree := ((new "").pushChild ((new "t").pushChild deep)).pushChild (new "s")
    tree.firstPlace? "s" = some [0, 0] ∧ tree.find? "s" = some deep ∧
      ∃ result, tree.modify? "s" (·.addNode "y" ∅) = some result ∧ result.find? "s" = some (deep.addNode "y" ∅) ∧
        at? [1] result = some (new "s") := by
  intro deep tree
  have hp : tree.firstPlace? "s" = some [0, 0] := by decide
  have hends := (searches_agree tree).2.2 "s"
  rw [hp] at hends
  obtain ⟨group, hg, -, hfind⟩ := hends.found
  obtain rfl : deep = group := Option.some.inj hg
  obtain ⟨result, hm, hc, hnext⟩ := hends.changed (·.addNode "y" ∅)
  exact ⟨hp, hfind, result, hm, hnext deep hg rfl, hc.apart [1] (by decide) (by decide)⟩

end DotLang.Subgraph
