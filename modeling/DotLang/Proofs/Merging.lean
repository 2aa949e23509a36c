import DotLang.Graph.Basic
import DotLang.Proofs.Everywhere

/-!
# Attaching trees that clash

A newcomer that has the name of a group is absorbed by it, and then its children look for their names below that
group, and so on. A child that finds its name comes in with all that is below it as it is, whatever names the
tree has elsewhere. So names stay distinct if and only if every name that is there already is found where it is
looked for: below the group that has the name of the group around it.
-/

namespace DotLang.Subgraph

/-! ## Where names are looked for -/

/-- Whether the group called `outer` below this one has a group called `inner` below it. -/
def nests (tree : Subgraph) (outer inner : String) : Bool :=
  (tree.find? outer).any fun group => group.groupNames.contains inner

theorem nests_iff {tree : Subgraph} {outer inner : String} :
    tree.nests outer inner = true ↔ ∃ group, tree.find? outer = some group ∧ inner ∈ group.groupNames := by
  unfold nests
  rw [Option.any_eq_true]
  simp only [List.contains_iff_mem]

theorem mem_descendants_of_find? {tree group : Subgraph} {name : String} (h : tree.find? name = some group) :
    group ∈ tree.descendants ∧ group.name = name ∧ name ≠ "" := by
  unfold find? at h
  split at h
  · cases h
  · rename_i hn
    rw [tail_hierarchy] at h
    exact ⟨List.mem_of_find?_eq_some h, by simpa using List.find?_some h, by simpa using hn⟩

theorem descendants_trans {a b c : Subgraph} (h : a ∈ b.descendants) (h' : b ∈ c.descendants) : a ∈ c.descendants := by
  apply hierarchies_trans ?_ _ h'
  rw [hierarchy_eq]
  exact List.mem_cons_of_mem _ h

theorem mem_groupNames_of_descendant {tree group : Subgraph} (h : group ∈ tree.descendants) {name : String}
    (hn : name ∈ group.groupNames) : name ∈ tree.groupNames := by
  obtain ⟨hne, found, hf, rfl⟩ := mem_groupNames.1 hn
  exact mem_groupNames.2 ⟨hne, found, descendants_trans hf h, rfl⟩

theorem mem_of_nests {tree : Subgraph} {outer inner : String} (h : tree.nests outer inner = true) :
    outer ∈ tree.groupNames ∧ inner ∈ tree.groupNames := by
  obtain ⟨group, hg, hi⟩ := nests_iff.1 h
  obtain ⟨hm, rfl, hne⟩ := mem_descendants_of_find? hg
  exact ⟨mem_groupNames.2 ⟨hne, group, hm, rfl⟩, mem_groupNames_of_descendant hm hi⟩

theorem nests_empty (tree : Subgraph) (outer : String) : tree.nests outer "" = false := by
  rw [← Bool.not_eq_true]
  intro h
  exact (mem_groupNames.1 (mem_of_nests h).2).1 rfl

/-- Where names are distinct, the search for the name of a group finds that group. -/
theorem find?_of_mem {tree group : Subgraph} (h : tree.groupNames.Nodup) (hg : group ∈ tree.descendants)
    (hn : group.name ≠ "") : tree.find? group.name = some group := by
  have key : ∀ groups : List Subgraph, ((groups.map Subgraph.name).filter (· ≠ "")).Nodup → group ∈ groups →
      groups.find? (fun found => found.name == group.name) = some group := by
    intro groups hd hm
    induction groups with
    | nil => cases hm
    | cons first rest ih =>
      rw [List.map_cons, List.filter_cons] at hd
      rw [List.find?_cons]
      rcases List.mem_cons.1 hm with rfl | hm
      · simp
      · by_cases he : first.name = group.name
        · rw [he] at hd
          simp only [hn, ne_eq, not_false_eq_true, decide_true, if_true, List.nodup_cons] at hd
          have hmem : group.name ∈ (rest.map Subgraph.name).filter (· ≠ "") := by
            simpa [hn] using ⟨group, hm, rfl⟩
          exact absurd hmem hd.1
        · simp only [beq_eq_false_iff_ne.2 he]
          apply ih _ hm
          split at hd
          · exact (List.nodup_cons.1 hd).2
          · exact hd
  unfold find?
  rw [if_neg (by simpa using hn), tail_hierarchy]
  apply key _ _ hg
  unfold groupNames properNames labelsBelow at h
  rw [List.map_map] at h
  exact h

/-! ## The names that come in -/

section
variable (tree : Subgraph)

mutual
/-- The names that come in when the group of its name in the tree absorbs a newcomer. -/
def unmet : Subgraph → List String
  | ⟨name, _, _, children⟩ => unmetAll name children

def unmetAll (outer : String) : List Subgraph → List String
  | [] => []
  | child :: rest =>
    (if tree.nests outer child.name then unmet child else properNames child.labels) ++ unmetAll outer rest
end

mutual
theorem unmet_sublist : ∀ sub : Subgraph, (tree.unmet sub).Sublist sub.groupNames
  | ⟨name, _, _, children⟩ => by
    rw [unmet, groupNames, labelsBelow_eq]
    exact unmetAll_sublist name children

theorem unmetAll_sublist (outer : String) : ∀ subs : List Subgraph,
    (tree.unmetAll outer subs).Sublist (properNames (subs.flatMap labels))
  | [] => .slnil
  | child :: rest => by
    rw [unmetAll, List.flatMap_cons, properNames_append]
    apply List.Sublist.append ?_ (unmetAll_sublist outer rest)
    split
    · exact (unmet_sublist child).trans (groupNames_sublist_labels child)
    · exact .refl _
end

/-- Below a group, the given names stand below one another as they do in the tree. -/
def Shows (names : List String) (sub : Subgraph) : Prop :=
  ∀ group ∈ sub.descendants, group.name ∈ names → ∀ name ∈ names,
    (name ∈ group.groupNames ↔ tree.nests group.name name = true)

variable {tree}

theorem Shows.mono {names more : List String} {sub : Subgraph} (hm : ∀ name ∈ more, name ∈ names)
    (h : Shows tree names sub) : Shows tree more sub :=
  fun group hg hn name hname => h group hg (hm _ hn) name (hm _ hname)

theorem Shows.of_mem {names : List String} {sub group : Subgraph} (h : Shows tree names sub)
    (hg : group ∈ sub.descendants) : Shows tree names group :=
  fun found hf => h found (descendants_trans hf hg)

theorem descendants_pushChild (sub child : Subgraph) :
    (sub.pushChild child).descendants = sub.descendants ++ child.hierarchy := by
  unfold descendants pushChild
  rw [List.flatMap_append]
  simp

theorem Shows.pushChild {names : List String} {sub child : Subgraph} (h : Shows tree names sub) (h0 : "" ∉ names)
    (hc : ∀ name ∈ properNames child.labels, name ∉ names) : Shows tree names (sub.pushChild child) := by
  intro group hg hn
  rw [descendants_pushChild, List.mem_append] at hg
  rcases hg with hg | hg
  · exact h group hg hn
  · have hne : group.name ≠ "" := fun he => h0 (he ▸ hn)
    have hm : group.name ∈ properNames child.labels :=
      mem_properNames.2 ⟨hne, group.label, List.mem_map_of_mem hg, rfl⟩
    exact absurd hn (hc _ hm)

theorem Shows.modify? {names more : List String} {sub result : Subgraph} {name : String} {f : Subgraph → Subgraph}
    (h : Shows tree names sub) (hm : sub.modify? name f = some result) (hname : name ∉ names)
    (hf : ∀ group ∈ sub.descendants, group.name = name →
      (f group).name = group.name ∧ (f group).groupNames.Perm (group.groupNames ++ more) ∧ Shows tree names (f group))
    (hmore : ∀ name ∈ more, name ∉ names) : Shows tree names result := by
  obtain ⟨-, -, group, hg, hn, -, hkept⟩ := modify?_kept hm
  obtain ⟨hl, hp, hs⟩ := hf group hg hn
  -- What was not changed is as before; around the change the new names stand below, and none of them is asked for.
  intro found hfound hin other ho
  rcases hkept found hfound with hk | hk | ⟨before, hb, he, hr⟩
  · exact h found hk hin other ho
  · rw [hierarchy_eq, List.mem_cons] at hk
    rcases hk with rfl | hk
    · rw [hl, hn] at hin
      exact absurd hin hname
    · exact hs found hk hin other ho
  · rw [he] at hin ⊢
    rw [← h before hb hin other ho]
    have hperm : found.groupNames.Perm (before.groupNames ++ more) := hr.groupNames_perm hl hp
    rw [hperm.mem_iff, List.mem_append]
    exact or_iff_left fun hm => hmore _ hm ho

theorem not_mem_properNames (labels : List Label) : "" ∉ properNames labels :=
  fun h => (mem_properNames.1 h).1 rfl

mutual
/-- What is not met comes in with all that is below it, and other names are met as before. -/
theorem absorb_unmet : ∀ {other sub : Subgraph}, other.groupNames.Nodup → Shows tree other.groupNames sub →
    (∀ name ∈ other.groupNames, (name ∈ sub.groupNames ↔ tree.nests other.name name = true)) →
    (sub.absorb other).groupNames.Perm (sub.groupNames ++ tree.unmet other) ∧
      ∀ names, "" ∉ names → (∀ name ∈ other.groupNames, name ∉ names) → Shows tree names sub →
        Shows tree names (sub.absorb other)
  | ⟨name, attrs, nodes, children⟩, sub, hd, hs, ho => by
    have he : (Subgraph.mk name attrs nodes children).groupNames = properNames (children.flatMap labels) := by
      rw [groupNames, labelsBelow_eq]
    rw [he] at hd hs ho ⊢
    rw [unmet, absorb]
    let own : Subgraph := ⟨sub.name, sub.attributes.merge attrs, sub.nodes.addAll nodes.toList, sub.children⟩
    exact @absorbChildren_unmet children name own hd hs ho

theorem absorbChildren_unmet : ∀ {children : List Subgraph} {outer : String} {sub : Subgraph},
    (properNames (children.flatMap labels)).Nodup → Shows tree (properNames (children.flatMap labels)) sub →
    (∀ name ∈ properNames (children.flatMap labels), (name ∈ sub.groupNames ↔ tree.nests outer name = true)) →
    (sub.absorbChildren children).groupNames.Perm (sub.groupNames ++ tree.unmetAll outer children) ∧
      ∀ names, "" ∉ names → (∀ name ∈ properNames (children.flatMap labels), name ∉ names) → Shows tree names sub →
        Shows tree names (sub.absorbChildren children)
  | [], outer, sub, _, _, _ => by
    rw [absorbChildren, unmetAll, List.append_nil]
    exact ⟨.refl _, fun _ _ _ h => h⟩
  | child :: rest, outer, sub, hd, hs, ho => by
    rw [List.flatMap_cons, properNames_append] at hd hs ho
    obtain ⟨hdchild, hdrest, hdisjoint⟩ := List.nodup_append.1 hd
    have hapart : ∀ name ∈ properNames child.labels, name ∉ properNames (rest.flatMap labels) :=
      fun name hc hr => hdisjoint name hc name hr rfl
    have hrest : Shows tree (properNames (rest.flatMap labels)) sub := hs.mono fun _ h => List.mem_append_right _ h
    -- The rest finds its names as before, since the child brings others.
    have key {next : Subgraph} {more : List String} (hp : next.groupNames.Perm (sub.groupNames ++ more))
        (hsub : ∀ name ∈ more, name ∈ properNames child.labels)
        (hkeep : ∀ names, "" ∉ names → (∀ name ∈ properNames child.labels, name ∉ names) → Shows tree names sub →
          Shows tree names next) :
        (next.absorbChildren rest).groupNames.Perm (sub.groupNames ++ (more ++ tree.unmetAll outer rest)) ∧
          ∀ names, "" ∉ names → (∀ name ∈ properNames ((child :: rest).flatMap labels), name ∉ names) →
            Shows tree names sub → Shows tree names (next.absorbChildren rest) := by
      have hown : ∀ name ∈ properNames (rest.flatMap labels), (name ∈ next.groupNames ↔ tree.nests outer name = true) := by
        intro name hn
        rw [← ho name (List.mem_append_right _ hn), hp.mem_iff, List.mem_append]
        exact or_iff_left fun hm => hapart name (hsub name hm) hn
      obtain ⟨hperm, hshows⟩ := absorbChildren_unmet hdrest (hkeep _ (not_mem_properNames _) hapart hrest) hown
      refine ⟨?_, fun names h0 hn h => ?_⟩
      · rw [← List.append_assoc]
        exact hperm.trans (hp.append_right _)
      · rw [List.flatMap_cons, properNames_append, List.forall_mem_append] at hn
        exact hshows names h0 hn.2 (hkeep names h0 hn.1 h)
    rw [absorbChildren, unmetAll]
    cases hm : sub.modify? child.name (fun group => group.absorb child) with
    | some merged =>
      obtain ⟨hne, -, group, hg, hname, hr⟩ := modify?_eq_some hm
      have hin : child.name ∈ properNames child.labels := by
        rw [properNames_labels, if_neg hne]
        exact List.mem_cons_self ..
      have hfound : child.name ∈ sub.groupNames := mem_groupNames.2 ⟨hne, group, hg, hname⟩
      have hbelow : ∀ name ∈ child.groupNames, name ∈ properNames child.labels :=
        (groupNames_sublist_labels child).subset
      -- The group that is found shows the names below the child as the tree does, so the induction applies there.
      have habsorb {found : Subgraph} (hf : found ∈ sub.descendants) (hn : found.name = child.name) :=
        absorb_unmet (hdchild.sublist (groupNames_sublist_labels child))
          ((hs.of_mem hf).mono fun name h => List.mem_append_left _ (hbelow name h)) fun name h => by
            rw [← hn]
            exact hs found hf (hn ▸ List.mem_append_left _ hin) name (List.mem_append_left _ (hbelow name h))
      rw [if_pos ((ho _ (List.mem_append_left _ hin)).1 hfound)]
      refine key (hr.groupNames_perm (name_absorb ..) (habsorb hg hname).1)
        (fun name h => hbelow name ((unmet_sublist tree child).subset h)) ?_
      intro names h0 hn h
      have hbelow' : ∀ name ∈ child.groupNames, name ∉ names := fun name h => hn name (hbelow name h)
      apply h.modify? hm (hn _ hin)
      · intro found hf he
        exact ⟨name_absorb .., (habsorb hf he).1, (habsorb hf he).2 names h0 hbelow' (h.of_mem hf)⟩
      · exact fun name h => hbelow' name ((unmet_sublist tree child).subset h)
    | none =>
      -- A name that is not below the group comes in, with all that is below it.
      have hnot : ¬ tree.nests outer child.name = true := by
        by_cases hne : child.name = ""
        · simp [hne, nests_empty]
        · have hin : child.name ∈ properNames child.labels := by
            rw [properNames_labels, if_neg hne]
            exact List.mem_cons_self ..
          rw [← ho _ (List.mem_append_left _ hin)]
          exact modify?_eq_none.1 hm
      rw [if_neg hnot]
      refine key ?_ (fun _ h => h) fun names h0 hn h => h.pushChild h0 hn
      rw [groupNames_pushChild]
end

end

/-! ## Names that stay distinct -/

/-- Every name in the newcomer that the tree has already is found where it is looked for: below the group of the
tree that has the name of the group around it. -/
def Meets (tree newcomer : Subgraph) : Prop :=
  ∀ outer ∈ newcomer.hierarchy, ∀ inner ∈ outer.children, inner.name ∈ tree.groupNames →
    tree.nests outer.name inner.name = true

instance (tree newcomer : Subgraph) : Decidable (tree.Meets newcomer) :=
  inferInstanceAs (Decidable (∀ outer ∈ newcomer.hierarchy, ∀ inner ∈ outer.children, inner.name ∈ tree.groupNames →
    tree.nests outer.name inner.name = true))

section
variable {tree : Subgraph}

theorem meets_iff {sub : Subgraph} :
    tree.Meets sub ↔
      (∀ child ∈ sub.children, child.name ∈ tree.groupNames → tree.nests sub.name child.name = true) ∧
        ∀ child ∈ sub.children, tree.Meets child := by
  unfold Meets
  rw [hierarchy_eq, List.forall_mem_cons, descendants, List.forall_mem_flatMap]

theorem forall_mem_properNames_cons {Q : String → Prop} {child : Subgraph} {rest : List Subgraph} :
    (∀ name ∈ properNames ((child :: rest).flatMap labels), Q name) ↔
      ((child.name ≠ "" → Q child.name) ∧ ∀ name ∈ child.groupNames, Q name) ∧
        ∀ name ∈ properNames (rest.flatMap labels), Q name := by
  rw [List.flatMap_cons, properNames_append, List.forall_mem_append, properNames_labels]
  by_cases h : child.name = "" <;> simp [h]

mutual
/-- A newcomer whose own name is not in the tree has no name of the tree, if all that are there are found. -/
theorem fresh_of_meets : ∀ {sub : Subgraph}, tree.Meets sub → sub.name ∉ tree.groupNames →
    ∀ name ∈ sub.groupNames, name ∉ tree.groupNames
  | ⟨name, attrs, nodes, children⟩, h, hn => by
    rw [meets_iff] at h
    rw [groupNames, labelsBelow_eq]
    apply fresh_of_meets_all _ h.2
    intro child hc hin
    exact hn (mem_of_nests (h.1 child hc hin)).1

theorem fresh_of_meets_all : ∀ {subs : List Subgraph}, (∀ sub ∈ subs, sub.name ∉ tree.groupNames) →
    (∀ sub ∈ subs, tree.Meets sub) → ∀ name ∈ properNames (subs.flatMap labels), name ∉ tree.groupNames
  | [], _, _ => by simp [properNames]
  | child :: rest, hn, h => by
    rw [List.forall_mem_cons] at hn h
    rw [forall_mem_properNames_cons]
    exact ⟨⟨fun _ => hn.1, fresh_of_meets h.1 hn.1⟩, fresh_of_meets_all hn.2 h.2⟩
end

theorem meets_of_fresh {sub : Subgraph} (h : ∀ name ∈ sub.groupNames, name ∉ tree.groupNames) : tree.Meets sub := by
  intro outer ho inner hi hin
  have hne : inner.name ≠ "" := (mem_groupNames.1 hin).1
  have hmem : inner ∈ outer.descendants := List.mem_flatMap.2 ⟨inner, hi, self_mem_hierarchy inner⟩
  have hbelow : inner ∈ sub.descendants := by
    rw [hierarchy_eq, List.mem_cons] at ho
    rcases ho with rfl | ho
    · exact hmem
    · exact descendants_trans hmem ho
  exact absurd hin (h _ (mem_groupNames.2 ⟨hne, inner, hbelow, rfl⟩))

mutual
theorem unmet_fresh_iff : ∀ {sub : Subgraph}, (∀ name ∈ tree.unmet sub, name ∉ tree.groupNames) ↔ tree.Meets sub
  | ⟨name, attrs, nodes, children⟩ => by
    rw [unmet, meets_iff]
    exact unmetAll_fresh_iff

theorem unmetAll_fresh_iff : ∀ {subs : List Subgraph} {outer : String},
    (∀ name ∈ tree.unmetAll outer subs, name ∉ tree.groupNames) ↔
      (∀ sub ∈ subs, sub.name ∈ tree.groupNames → tree.nests outer sub.name = true) ∧
        ∀ sub ∈ subs, tree.Meets sub
  | [], outer => by simp [unmetAll]
  | child :: rest, outer => by
    rw [unmetAll, List.forall_mem_append, unmetAll_fresh_iff, List.forall_mem_cons, List.forall_mem_cons]
    by_cases hm : tree.nests outer child.name = true
    · rw [if_pos hm, unmet_fresh_iff]
      simp only [hm]
      tauto
    · have hchild : (∀ name ∈ properNames child.labels, name ∉ tree.groupNames) ↔
          child.name ∉ tree.groupNames ∧ tree.Meets child := by
        constructor
        · intro h
          refine ⟨fun hin => ?_, meets_of_fresh fun name hn => h name ((groupNames_sublist_labels child).subset hn)⟩
          have hne : child.name ≠ "" := (mem_groupNames.1 hin).1
          apply h child.name _ hin
          rw [properNames_labels, if_neg hne]
          exact List.mem_cons_self ..
        · rintro ⟨hn, h⟩ name hname
          rw [properNames_labels] at hname
          split at hname
          · exact fresh_of_meets h hn name hname
          · rcases List.mem_cons.1 hname with rfl | hname
            · exact hn
            · exact fresh_of_meets h hn name hname
      rw [if_neg hm, hchild]
      tauto
end

end

/-- The names of a tree that took in a newcomer: its own, and those of the newcomer that did not meet. -/
theorem groupNames_attachUnder {tree sub result : Subgraph} {parent : Option String} (h : tree.groupNames.Nodup)
    (hs : (properNames sub.labels).Nodup) (hr : tree.attachUnder parent sub = some result) :
    result.groupNames.Perm
      (tree.groupNames ++ if sub.name ∈ tree.groupNames then tree.unmet sub else properNames sub.labels) := by
  obtain ⟨root, hroot, hm⟩ := attachUnder_eq_some hr
  have hbelow : root.descendants = tree.descendants := by rw [hroot]; rfl
  have hnames : root.groupNames = tree.groupNames := by rw [groupNames, labelsBelow, hbelow]; rfl
  rcases hm with hm | ⟨hnot, ⟨-, rfl⟩ | ⟨name, -, hm⟩⟩
  · obtain ⟨hne, -, group, hg, hn, hrep⟩ := modify?_eq_some hm
    rw [hbelow] at hg
    have hin : sub.name ∈ tree.groupNames := mem_groupNames.2 ⟨hne, group, hg, hn⟩
    have hshown : ∀ found ∈ tree.descendants, found.name ≠ "" → ∀ name,
        (name ∈ found.groupNames ↔ tree.nests found.name name = true) := by
      intro found hf hne name
      rw [nests_iff, find?_of_mem h hf hne]
      simp
    have hshows : Shows tree sub.groupNames group := by
      intro found hf hin name _
      exact hshown found (descendants_trans hf hg) (fun he => (mem_groupNames.1 (he ▸ hin)).1 rfl) name
    have habsorb := absorb_unmet (hs.sublist (groupNames_sublist_labels sub)) hshows fun name _ => by
      rw [← hn]
      exact hshown group hg (hn ▸ hne) name
    rw [if_pos hin, ← hnames]
    exact hrep.groupNames_perm (name_absorb ..) habsorb.1
  · rw [if_neg hnot, ← hnames, groupNames_pushChild]
  · obtain ⟨-, -, group, -, -, hrep⟩ := modify?_eq_some hm
    rw [if_neg hnot, ← hnames]
    exact hrep.groupNames_perm rfl (by rw [groupNames_pushChild])

/-- Names that were distinct stay so exactly if the newcomer meets the tree. -/
theorem nodup_attachUnder_iff {tree sub result : Subgraph} {parent : Option String} (h : tree.groupNames.Nodup)
    (hs : (properNames sub.labels).Nodup) (hr : tree.attachUnder parent sub = some result) :
    result.groupNames.Nodup ↔ tree.Meets sub := by
  have hapart {more : List String} (hm : more.Nodup) :
      (tree.groupNames ++ more).Nodup ↔ ∀ name ∈ more, name ∉ tree.groupNames := by
    rw [List.nodup_append]
    constructor
    · intro hn name hname hin
      exact hn.2.2 name hin name hname rfl
    · intro hn
      refine ⟨h, hm, ?_⟩
      rintro name hin other ho rfl
      exact hn name ho hin
  rw [(groupNames_attachUnder h hs hr).nodup_iff]
  split
  · rw [hapart ((hs.sublist (groupNames_sublist_labels sub)).sublist (unmet_sublist tree sub)), unmet_fresh_iff]
  · rename_i hn
    rw [hapart hs]
    constructor
    · intro hf
      exact meets_of_fresh fun name hname => hf name ((groupNames_sublist_labels sub).subset hname)
    · intro hm name hname
      rw [properNames_labels] at hname
      split at hname
      · exact fresh_of_meets hm hn name hname
      · rcases List.mem_cons.1 hname with rfl | hname
        · exact hn
        · exact fresh_of_meets hm hn name hname

theorem exists_attachUnder {tree : Subgraph} (sub : Subgraph) {parent : String} (h : parent ∈ tree.groupNames) :
    ∃ result, tree.attachUnder (some parent) sub = some result := by
  unfold attachUnder
  rw [if_pos (by simpa using find?_isSome.2 h)]
  dsimp only
  split
  · exact ⟨_, rfl⟩
  · apply Option.ne_none_iff_exists'.1
    intro hm
    exact modify?_eq_none.1 hm h

end DotLang.Subgraph

namespace DotLang.Graph

/-- At the root and below any group, attaching keeps names distinct exactly if the newcomer meets the tree. -/
theorem nodup_attach_iff {graph : Graph} {sub : Subgraph} (hg : graph.body.groupNames.Nodup)
    (hs : (Subgraph.properNames sub.labels).Nodup) :
    ((graph.attach sub).body.groupNames.Nodup ↔ graph.body.Meets sub) ∧
      ∀ parent ∈ graph.body.groupNames, ∃ result, graph.attachUnder? parent sub = some result ∧
        (result.body.groupNames.Nodup ↔ graph.body.Meets sub) := by
  constructor
  · exact Subgraph.nodup_attachUnder_iff hg hs (Subgraph.attachUnder_none ..)
  · intro parent hp
    obtain ⟨body, hb⟩ := Subgraph.exists_attachUnder sub hp
    refine ⟨{ graph with body }, ?_, Subgraph.nodup_attachUnder_iff hg hs hb⟩
    unfold attachUnder?
    rw [hb]
    rfl

/-- A graph with the groups `x` and, below it, `y`. -/
def nested : Graph := (new "" ⟨false, false⟩).attach ((Subgraph.new "x").pushChild (.new "y"))

/-- A newcomer `x` with the groups `y` and `z` adds to the one that is there. -/
theorem nodup_attach_nested :
    (nested.attach (((Subgraph.new "x").pushChild (.new "y")).pushChild (.new "z"))).body.groupNames.Nodup :=
  (nodup_attach_iff (by decide +kernel) (by decide +kernel)).1.2 (by decide +kernel)

/-- A newcomer `s` with a group `x` of its own brings a second one. -/
theorem repeated_attach :
    let sub := (Subgraph.new "s").pushChild (.new "x")
    nested.body.groupNames.Nodup ∧ (Subgraph.properNames sub.labels).Nodup ∧
      (nested.attach sub).body.groupNames = ["x", "y", "s", "x"] ∧ ¬ (nested.attach sub).body.groupNames.Nodup := by
  decide +kernel

end DotLang.Graph
