import DotLang.Proofs.Nodes
import DotLang.Subgraph.Update

/-!
# Trees of groups as lists

The stack walk lists a group and then the walks of its children, so the hierarchy follows the tree. What a
group has of its own is its label; a change at one group replaces the labels of that group's hierarchy in
place and no others, and it happens where the search for a name finds something.
-/

namespace DotLang.Subgraph

theorem walk_nil : walk [] = [] := by
  rw [walk]

theorem walk_cons (sub : Subgraph) (rest : List Subgraph) :
    walk (sub :: rest) = sub :: walk (sub.children ++ rest) := by
  rw [walk]

theorem walk_append (a b : List Subgraph) : walk (a ++ b) = walk a ++ walk b := by
  induction a using walk.induct with
  | case1 => rw [walk_nil]; rfl
  | case2 sub rest ih => rw [List.cons_append, walk_cons, walk_cons, ← List.append_assoc, ih]; rfl

theorem walk_eq_flatMap : ∀ stack : List Subgraph, walk stack = stack.flatMap hierarchy
  | [] => walk_nil
  | sub :: rest => by
    rw [List.flatMap_cons, ← walk_eq_flatMap rest, hierarchy, ← walk_append]
    rfl

/-- The groups below one, each in front of its children. -/
def descendants (sub : Subgraph) : List Subgraph := sub.children.flatMap hierarchy

theorem hierarchy_eq (sub : Subgraph) : sub.hierarchy = sub :: sub.descendants := by
  rw [hierarchy, walk_cons, List.append_nil, walk_eq_flatMap, descendants]

theorem self_mem_hierarchy (sub : Subgraph) : sub ∈ sub.hierarchy := by
  rw [hierarchy_eq]
  exact List.mem_cons_self ..

mutual
/-- The hierarchy of a group in a hierarchy is part of it. -/
theorem hierarchy_trans {a b : Subgraph} (h : a ∈ b.hierarchy) : ∀ sub : Subgraph, b ∈ sub.hierarchy →
    a ∈ sub.hierarchy
  | ⟨name, attrs, nodes, children⟩, hb => by
    rw [hierarchy_eq, List.mem_cons] at hb ⊢
    rcases hb with rfl | hb
    · rwa [hierarchy_eq, List.mem_cons] at h
    · exact Or.inr (hierarchies_trans h children hb)

theorem hierarchies_trans {a b : Subgraph} (h : a ∈ b.hierarchy) : ∀ subs : List Subgraph,
    b ∈ subs.flatMap hierarchy → a ∈ subs.flatMap hierarchy
  | [], hb => absurd hb List.not_mem_nil
  | sub :: rest, hb => by
    rw [List.flatMap_cons, List.mem_append] at hb ⊢
    exact hb.imp (hierarchy_trans h sub) (hierarchies_trans h rest)
end

/-! ## Labels -/

/-- What a group has of its own: its name, its attributes and its nodes. -/
abbrev Label := String × Attributes × NodeMap

def label (sub : Subgraph) : Label := (sub.name, sub.attributes, sub.nodes)

def labels (sub : Subgraph) : List Label := sub.hierarchy.map label

def labelsBelow (sub : Subgraph) : List Label := sub.descendants.map label

theorem labels_eq (sub : Subgraph) : sub.labels = sub.label :: sub.labelsBelow := by
  rw [labels, hierarchy_eq]
  rfl

theorem labelsBelow_eq (sub : Subgraph) : sub.labelsBelow = sub.children.flatMap labels := by
  rw [labelsBelow, descendants, List.map_flatMap]
  rfl

/-- The names of labels, but for those of anonymous groups. -/
def properNames (labels : List Label) : List String := (labels.map Prod.fst).filter (· ≠ "")

/-- The names of the groups below one. -/
def groupNames (sub : Subgraph) : List String := properNames sub.labelsBelow

/-- The names of the nodes in the hierarchy, each as often as it occurs. -/
def memberNames (sub : Subgraph) : List String := sub.labels.flatMap fun label => label.2.2.names

@[simp] theorem properNames_append (a b : List Label) :
    properNames (a ++ b) = properNames a ++ properNames b := by
  simp [properNames]

theorem mem_properNames {name : String} {labels : List Label} :
    name ∈ properNames labels ↔ name ≠ "" ∧ ∃ label ∈ labels, label.1 = name := by
  simp [properNames, and_comm]

theorem mem_groupNames {name : String} {sub : Subgraph} :
    name ∈ sub.groupNames ↔ name ≠ "" ∧ ∃ group ∈ sub.descendants, group.name = name := by
  simp [groupNames, mem_properNames, labelsBelow, label]

theorem memberNames_eq (sub : Subgraph) : sub.memberNames = sub.allNodes.map Node.name := by
  rw [memberNames, labels, allNodes, List.flatMap_map, List.map_flatMap]
  rfl

theorem mem_memberNames {name : String} {sub : Subgraph} :
    name ∈ sub.memberNames ↔ ∃ group ∈ sub.hierarchy, name ∈ group.nodes.names := by
  simp [memberNames, labels, label]

/-! ## Finding -/

theorem tail_hierarchy (sub : Subgraph) : sub.hierarchy.tail = sub.descendants := by
  rw [hierarchy_eq]
  rfl

theorem find?_isSome {sub : Subgraph} {name : String} :
    (sub.find? name).isSome = true ↔ name ∈ sub.groupNames := by
  rw [find?, mem_groupNames, tail_hierarchy]
  by_cases h : name = ""
  · simp [h]
  · simp [h, List.find?_isSome]

theorem find?_eq_none {sub : Subgraph} {name : String} : sub.find? name = none ↔ name ∉ sub.groupNames := by
  rw [← find?_isSome, Option.not_isSome_iff_eq_none]

/-! ## Changing a group that is found -/

/-- The labels `old` became `new` where those of a group `old'` became those of `new'`. -/
def Replaced (old new : List Label) (old' new' : Subgraph) : Prop :=
  ∃ before after, old = before ++ old'.labels ++ after ∧ new = before ++ new'.labels ++ after

theorem Replaced.append_left {old new : List Label} {a b : Subgraph} (front : List Label)
    (h : Replaced old new a b) : Replaced (front ++ old) (front ++ new) a b := by
  obtain ⟨before, after, rfl, rfl⟩ := h
  exact ⟨front ++ before, after, by simp, by simp⟩

theorem Replaced.append_right {old new : List Label} {a b : Subgraph} (back : List Label)
    (h : Replaced old new a b) : Replaced (old ++ back) (new ++ back) a b := by
  obtain ⟨before, after, rfl, rfl⟩ := h
  exact ⟨before, after ++ back, by simp, by simp⟩

/-- A group of a tree that was changed at one group: one that was there, one of what the group in question became,
or one that was there and has the change below it. -/
def Kept (old : List Subgraph) (group changed : Subgraph) (found : Subgraph) : Prop :=
  found ∈ old ∨ found ∈ changed.hierarchy ∨
    ∃ before ∈ old, found.name = before.name ∧ Replaced before.labelsBelow found.labelsBelow group changed

theorem Kept.mono {old more : List Subgraph} {group changed found : Subgraph} (hm : ∀ sub ∈ old, sub ∈ more)
    (h : Kept old group changed found) : Kept more group changed found := by
  rcases h with h | h | ⟨before, hb, h⟩
  · exact Or.inl (hm _ h)
  · exact Or.inr (Or.inl h)
  · exact Or.inr (Or.inr ⟨before, hm _ hb, h⟩)

section
variable {name : String} {f : Subgraph → Subgraph}

mutual
theorem modifyBelow?_kept : ∀ {sub result : Subgraph}, modifyBelow? name f sub = some result →
    result.label = sub.label ∧
      ∃ group ∈ sub.descendants, group.name = name ∧ Replaced sub.labelsBelow result.labelsBelow group (f group) ∧
        ∀ found ∈ result.descendants, Kept sub.descendants group (f group) found
  | ⟨own, attrs, nodes, children⟩, result, h => by
    rw [modifyBelow?] at h
    obtain ⟨children', hc, rfl⟩ := Option.map_eq_some_iff.1 h
    rw [labelsBelow_eq, labelsBelow_eq]
    exact ⟨rfl, modifyFirst?_kept hc⟩

theorem modifyFirst?_kept : ∀ {subs result : List Subgraph}, modifyFirst? name f subs = some result →
    ∃ group ∈ subs.flatMap hierarchy, group.name = name ∧
      Replaced (subs.flatMap labels) (result.flatMap labels) group (f group) ∧
      ∀ found ∈ result.flatMap hierarchy, Kept (subs.flatMap hierarchy) group (f group) found
  | [], _, h => by rw [modifyFirst?] at h; cases h
  | child :: rest, result, h => by
    have hrest : ∀ sub ∈ rest.flatMap hierarchy, sub ∈ (child :: rest).flatMap hierarchy := by
      intro sub hs
      rw [List.flatMap_cons]
      exact List.mem_append_right _ hs
    have hchild : ∀ sub ∈ child.hierarchy, sub ∈ (child :: rest).flatMap hierarchy := by
      intro sub hs
      rw [List.flatMap_cons]
      exact List.mem_append_left _ hs
    have hbelow : ∀ sub ∈ child.descendants, sub ∈ child.hierarchy := by
      intro sub hs
      rw [hierarchy_eq]
      exact List.mem_cons_of_mem _ hs
    rw [modifyFirst?] at h
    split at h
    · rename_i hn
      obtain rfl := Option.some.inj h
      refine ⟨child, hchild _ (self_mem_hierarchy child), hn, ⟨[], rest.flatMap labels, by simp, by simp⟩, ?_⟩
      intro found hf
      rw [List.flatMap_cons, List.mem_append] at hf
      rcases hf with hf | hf
      · exact Or.inr (Or.inl hf)
      · exact Or.inl (hrest _ hf)
    · split at h
      · rename_i child' hc
        obtain rfl := Option.some.inj h
        obtain ⟨hl, group, hg, hn, hr, hk⟩ := modifyBelow?_kept hc
        refine ⟨group, hchild _ (hbelow _ hg), hn, ?_, ?_⟩
        · rw [List.flatMap_cons, List.flatMap_cons, labels_eq, labels_eq, hl]
          exact (hr.append_left [child.label]).append_right _
        · intro found hf
          rw [List.flatMap_cons, List.mem_append, hierarchy_eq, List.mem_cons] at hf
          rcases hf with (rfl | hf) | hf
          · exact Or.inr (Or.inr ⟨child, hchild _ (self_mem_hierarchy child), congrArg Prod.fst hl, hr⟩)
          · exact (hk found hf).mono fun sub hs => hchild _ (hbelow _ hs)
          · exact Or.inl (hrest _ hf)
      · obtain ⟨rest', hc, rfl⟩ := Option.map_eq_some_iff.1 h
        obtain ⟨group, hg, hn, hr, hk⟩ := modifyFirst?_kept hc
        refine ⟨group, hrest _ hg, hn, ?_, ?_⟩
        · rw [List.flatMap_cons, List.flatMap_cons]
          exact hr.append_left _
        · intro found hf
          rw [List.flatMap_cons, List.mem_append] at hf
          rcases hf with hf | hf
          · exact Or.inl (hchild _ hf)
          · exact (hk found hf).mono hrest
end

mutual
theorem modifyBelow?_eq_none : ∀ {sub : Subgraph}, modifyBelow? name f sub = none →
    ∀ group ∈ sub.descendants, group.name ≠ name
  | ⟨own, attrs, nodes, children⟩, h => by
    rw [modifyBelow?, Option.map_eq_none_iff] at h
    exact modifyFirst?_eq_none h

theorem modifyFirst?_eq_none : ∀ {subs : List Subgraph}, modifyFirst? name f subs = none →
    ∀ group ∈ subs.flatMap hierarchy, group.name ≠ name
  | [], _ => by simp
  | child :: rest, h => by
    rw [modifyFirst?] at h
    split at h
    · cases h
    · rename_i hn
      split at h
      · cases h
      · rename_i hc
        rw [Option.map_eq_none_iff] at h
        intro group hg
        rw [List.flatMap_cons, hierarchy_eq, List.cons_append, List.mem_cons, List.mem_append] at hg
        rcases hg with rfl | hg | hg
        · exact hn
        · exact modifyBelow?_eq_none hc group hg
        · exact modifyFirst?_eq_none h group hg
end

theorem modify?_kept {sub result : Subgraph} (h : sub.modify? name f = some result) :
    name ≠ "" ∧ result.label = sub.label ∧
      ∃ group ∈ sub.descendants, group.name = name ∧
        Replaced sub.labelsBelow result.labelsBelow group (f group) ∧
          ∀ found ∈ result.descendants, Kept sub.descendants group (f group) found := by
  unfold modify? at h
  split at h
  · cases h
  · rename_i hn
    exact ⟨by simpa using hn, modifyBelow?_kept h⟩

theorem modify?_eq_some {sub result : Subgraph} (h : sub.modify? name f = some result) :
    name ≠ "" ∧ result.label = sub.label ∧
      ∃ group ∈ sub.descendants, group.name = name ∧
        Replaced sub.labelsBelow result.labelsBelow group (f group) := by
  obtain ⟨hn, hl, group, hg, he, hr, -⟩ := modify?_kept h
  exact ⟨hn, hl, group, hg, he, hr⟩

theorem modify?_eq_none {sub : Subgraph} : sub.modify? name f = none ↔ name ∉ sub.groupNames := by
  constructor
  · intro h hm
    obtain ⟨hne, group, hg, he⟩ := mem_groupNames.1 hm
    unfold modify? at h
    rw [if_neg (by simpa using hne)] at h
    exact modifyBelow?_eq_none h group hg he
  · intro hm
    cases h : sub.modify? name f with
    | none => rfl
    | some result =>
      obtain ⟨hne, _, group, hg, he, _⟩ := modify?_eq_some h
      exact absurd (mem_groupNames.2 ⟨hne, group, hg, he⟩) hm

end

end DotLang.Subgraph
