import DotLang.Proofs.Places

/-!
# Taking a group out of a tree

A group that is taken out leaves with all groups below it, which stand in one piece of the walk; all others keep
what they have of their own, in their order. Where each name is given to one group only, the group that is taken out
is the one that a search finds, and its name is gone.
-/

namespace DotLang.Subgraph

/-! ## The tree without a place -/

/-- The tree without the group at a place. The root stays. -/
def eraseAt : List Nat → Subgraph → Subgraph
  | [], sub => sub
  | [i], sub => { sub with children := sub.children.eraseIdx i }
  | i :: path, sub => { sub with children := sub.children.modify i (eraseAt path) }

theorem label_eraseAt (path : List Nat) (sub : Subgraph) : (eraseAt path sub).label = sub.label := by
  unfold eraseAt
  split <;> rfl

/-- Groups without a block of them that stood in one piece; those in front of it have kept their labels, those behind
it are the same. -/
def CutOut (block old new : List Subgraph) : Prop :=
  ∃ before before' after, old = before ++ block ++ after ∧ new = before' ++ after ∧ before'.map label = before.map label

theorem CutOut.cons {block old new : List Subgraph} {a b : Subgraph} (hl : b.label = a.label)
    (h : CutOut block old new) : CutOut block (a :: old) (b :: new) := by
  obtain ⟨before, before', after, rfl, rfl, he⟩ := h
  exact ⟨a :: before, b :: before', after, rfl, rfl, by rw [List.map_cons, List.map_cons, hl, he]⟩

theorem CutOut.append_left {block old new : List Subgraph} (front : List Subgraph) (h : CutOut block old new) :
    CutOut block (front ++ old) (front ++ new) := by
  obtain ⟨before, before', after, rfl, rfl, he⟩ := h
  exact ⟨front ++ before, front ++ before', after, by simp, by simp, by rw [List.map_append, List.map_append, he]⟩

theorem CutOut.append_right {block old new : List Subgraph} (back : List Subgraph) (h : CutOut block old new) :
    CutOut block (old ++ back) (new ++ back) := by
  obtain ⟨before, before', after, rfl, rfl, he⟩ := h
  exact ⟨before, before', after ++ back, by simp, by simp, he⟩

theorem CutOut.labels {block old new : List Subgraph} (h : CutOut block old new) :
    ∃ before after, old.map label = before ++ block.map label ++ after ∧ new.map label = before ++ after := by
  obtain ⟨before, before', after, rfl, rfl, he⟩ := h
  exact ⟨before.map label, after.map label, by simp, by rw [List.map_append, he]⟩

theorem cutOut_modify {subs : List Subgraph} {child : Subgraph} {i : Nat} (h : subs[i]? = some child)
    {f : Subgraph → Subgraph} {block : List Subgraph} (hf : CutOut block child.hierarchy (f child).hierarchy) :
    CutOut block (subs.flatMap hierarchy) ((subs.modify i f).flatMap hierarchy) := by
  have hsplit := congrArg (List.flatMap hierarchy) (eq_take_append_drop h)
  obtain ⟨hi, rfl⟩ := List.getElem?_eq_some_iff.1 h
  rw [List.flatMap_append, List.flatMap_cons] at hsplit
  rw [hsplit, List.modify_eq_take_cons_drop hi, List.flatMap_append, List.flatMap_cons]
  exact (hf.append_right _).append_left _

theorem cutOut_eraseAt : ∀ {path : List Nat} {sub found : Subgraph}, path ≠ [] → at? path sub = some found →
    CutOut found.hierarchy sub.descendants (eraseAt path sub).descendants
  | [], _, _, hp, _ => absurd rfl hp
  | [i], sub, found, _, h => by
    obtain ⟨child, hi, hc⟩ := at?_cons.1 h
    obtain rfl := Option.some.inj hc
    let before := (sub.children.take i).flatMap hierarchy
    let after := (sub.children.drop (i + 1)).flatMap hierarchy
    have hold : sub.descendants = before ++ child.hierarchy ++ after := by
      rw [List.append_assoc, ← List.flatMap_cons, ← List.flatMap_append, ← eq_take_append_drop hi]
      rfl
    have hnew : (eraseAt [i] sub).descendants = before ++ after := by
      rw [← List.flatMap_append, ← List.eraseIdx_eq_take_drop_succ]
      rfl
    exact ⟨before, before, after, hold, hnew, rfl⟩
  | i :: j :: path, sub, found, _, h => by
    obtain ⟨child, hi, hc⟩ := at?_cons.1 h
    apply cutOut_modify hi
    rw [hierarchy_eq child, hierarchy_eq (eraseAt (j :: path) child)]
    exact (cutOut_eraseAt (List.cons_ne_nil j path) hc).cons (label_eraseAt _ child)

/-! ## The place that is taken -/

section
variable {name : String}

mutual
theorem detachBelow?_place : ∀ {sub found left : Subgraph}, detachBelow? name sub = some (found, left) →
    ∃ path, path ≠ [] ∧ at? path sub = some found ∧ found.name = name ∧ left = eraseAt path sub
  | ⟨own, attrs, nodes, children⟩, found, left, h => by
    rw [detachBelow?] at h
    split at h
    · rename_i child hc
      obtain ⟨rfl, rfl⟩ := Prod.mk.inj (Option.some.inj h)
      obtain ⟨i, hi, he⟩ := exists_place_of_find? hc
      have hn := List.find?_some hc
      refine ⟨[i], List.cons_ne_nil i [], at?_cons.2 ⟨child, hi, rfl⟩, by simpa using hn, ?_⟩
      rw [he, eraseAt]
    · obtain ⟨⟨_, rest⟩, hd, he⟩ := Option.map_eq_some_iff.1 h
      obtain ⟨rfl, rfl⟩ := Prod.mk.inj he
      obtain ⟨i, child, path, hp, hi, hg, hn, rfl⟩ := detachFirst?_place hd
      refine ⟨i :: path, List.cons_ne_nil i path, at?_cons.2 ⟨child, hi, hg⟩, hn, ?_⟩
      obtain ⟨j, path, rfl⟩ := List.exists_cons_of_ne_nil hp
      rw [eraseAt]
      exact List.cons_ne_nil j path

theorem detachFirst?_place : ∀ {subs left : List Subgraph} {found : Subgraph},
    detachFirst? name subs = some (found, left) →
      ∃ (i : Nat) (child : Subgraph) (path : List Nat), path ≠ [] ∧ subs[i]? = some child ∧
        at? path child = some found ∧ found.name = name ∧ left = subs.modify i (eraseAt path)
  | [], _, _, h => by rw [detachFirst?] at h; cases h
  | child :: rest, left, found, h => by
    rw [detachFirst?] at h
    split at h
    · rename_i found' child' hd
      obtain ⟨rfl, rfl⟩ := Prod.mk.inj (Option.some.inj h)
      obtain ⟨path, hp, hg, hn, rfl⟩ := detachBelow?_place hd
      exact ⟨0, child, path, hp, rfl, hg, hn, rfl⟩
    · obtain ⟨⟨_, rest'⟩, hd, he⟩ := Option.map_eq_some_iff.1 h
      obtain ⟨rfl, rfl⟩ := Prod.mk.inj he
      obtain ⟨i, other, path, hp, hi, hg, hn, rfl⟩ := detachFirst?_place hd
      exact ⟨i + 1, other, path, hp, hi, hg, hn, rfl⟩
end

mutual
theorem detachBelow?_eq_none : ∀ {sub : Subgraph}, detachBelow? name sub = none →
    ∀ group ∈ sub.descendants, group.name ≠ name
  | ⟨own, attrs, nodes, children⟩, h => by
    rw [detachBelow?] at h
    split at h
    · cases h
    · rename_i hc
      rw [Option.map_eq_none_iff] at h
      intro group hg
      obtain ⟨child, hm, hg⟩ := List.mem_flatMap.1 hg
      rw [hierarchy_eq, List.mem_cons] at hg
      rcases hg with rfl | hg
      · simpa using List.find?_eq_none.1 hc group hm
      · exact detachFirst?_eq_none h child hm group hg

theorem detachFirst?_eq_none : ∀ {subs : List Subgraph}, detachFirst? name subs = none →
    ∀ child ∈ subs, ∀ group ∈ child.descendants, group.name ≠ name
  | [], _ => by simp
  | child :: rest, h => by
    rw [detachFirst?] at h
    split at h
    · cases h
    · rename_i hd
      rw [Option.map_eq_none_iff] at h
      exact List.forall_mem_cons.2 ⟨detachBelow?_eq_none hd, detachFirst?_eq_none h⟩
end

theorem detach?_place {sub found left : Subgraph} (h : sub.detach? name = some (found, left)) :
    name ≠ "" ∧ ∃ path, path ≠ [] ∧ at? path sub = some found ∧ found.name = name ∧ left = eraseAt path sub := by
  unfold detach? at h
  split at h
  · cases h
  · rename_i hn
    exact ⟨by simpa using hn, detachBelow?_place h⟩

theorem detach?_eq_none {sub : Subgraph} : sub.detach? name = none ↔ name ∉ sub.groupNames := by
  constructor
  · intro h hm
    obtain ⟨hne, group, hg, he⟩ := mem_groupNames.1 hm
    unfold detach? at h
    rw [if_neg (by simpa using hne)] at h
    exact detachBelow?_eq_none h group hg he
  · intro hm
    rw [Option.eq_none_iff_forall_ne_some]
    rintro ⟨found, left⟩ h
    obtain ⟨hne, path, hp, hg, hn, -⟩ := detach?_place h
    exact hm (mem_groupNames.2 ⟨hne, found, mem_descendants_of_at? hp hg, hn⟩)

end

/-! ## Taking out in place -/

section
variable (name : String)

mutual
/-- Takes the first group of a name out of a tree, step by step in the tree itself: a child by its place, or else a
group below the first child that has one. -/
def takeBelow : Subgraph → Option Subgraph × Subgraph
  | ⟨own, attrs, nodes, children⟩ =>
    match takeFirst (fun child => child.name == name) children with
    | (some found, left) => (some found, ⟨own, attrs, nodes, left⟩)
    | (none, _) =>
      let (found, left) := takeAmong children
      (found, ⟨own, attrs, nodes, left⟩)

def takeAmong : List Subgraph → Option Subgraph × List Subgraph
  | [] => (none, [])
  | child :: rest =>
    match takeBelow child with
    | (some found, left) => (some found, left :: rest)
    | (none, left) =>
      let (found, rest) := takeAmong rest
      (found, left :: rest)
end

/-- What is taken, and what is left: all, where nothing is taken. -/
def taken {α β : Type} (all : β) (result : Option (α × β)) : Option α × β :=
  (result.map Prod.fst, (result.map Prod.snd).getD all)

mutual
theorem takeBelow_eq : ∀ sub : Subgraph, takeBelow name sub = taken sub (detachBelow? name sub)
  | ⟨own, attrs, nodes, children⟩ => by
    rw [takeBelow, detachBelow?, takeFirst_eq, takeAmong_eq children]
    cases children.find? fun child => child.name == name with
    | some found => rfl
    | none => cases detachFirst? name children <;> rfl

theorem takeAmong_eq : ∀ subs : List Subgraph, takeAmong name subs = taken subs (detachFirst? name subs)
  | [] => by
    rw [takeAmong, detachFirst?]
    rfl
  | child :: rest => by
    rw [takeAmong, detachFirst?, takeBelow_eq child, takeAmong_eq rest]
    cases detachBelow? name child with
    | some result => rfl
    | none => cases detachFirst? name rest <;> rfl
end

end

def takeGroup (sub : Subgraph) (name : String) : Option Subgraph × Subgraph :=
  if name.isEmpty then (none, sub) else takeBelow name sub

theorem takeGroup_eq (sub : Subgraph) (name : String) : sub.takeGroup name = taken sub (sub.detach? name) := by
  unfold takeGroup detach?
  split
  · rfl
  · exact takeBelow_eq name sub

/-! ## Names given once -/

/-- A tree without a group: that of a place, with all that is below it, and nothing else. -/
structure Detached (sub found left : Subgraph) : Prop where
  place : ∃ path, path ≠ [] ∧ at? path sub = some found ∧ left = eraseAt path sub
  block : CutOut found.hierarchy sub.hierarchy left.hierarchy

theorem not_mem_groupNames_of_cutOut {sub found left : Subgraph} (h : sub.groupNames.Nodup) (hn : found.name ≠ "")
    (hc : CutOut found.hierarchy sub.descendants left.descendants) : found.name ∉ left.groupNames := by
  obtain ⟨before, after, hold, hnew⟩ := hc.labels
  have hname : found.name ∈ properNames found.labels := by
    rw [properNames_labels, if_neg hn]
    exact List.mem_cons_self ..
  have hd : (properNames before ++ properNames found.labels ++ properNames after).Nodup := by
    rw [← properNames_append, ← properNames_append]
    exact hold ▸ h
  rw [List.append_assoc, List.nodup_append, List.nodup_append] at hd
  obtain ⟨-, ⟨-, -, hafter⟩, hbefore⟩ := hd
  rw [groupNames, labelsBelow, hnew, properNames_append, List.mem_append, not_or]
  exact ⟨fun hm => hbefore _ hm _ (List.mem_append_left _ hname) rfl, fun hm => hafter _ hname _ hm rfl⟩

/-- Where each name is given to one group only, the group that is taken out is the one that a search finds; it goes
with its hierarchy and nothing else, and its name is not found again. Where nothing is taken out nothing changes. -/
theorem takeGroup_exact {sub : Subgraph} (h : sub.groupNames.Nodup) (name : String) :
    (sub.takeGroup name).1 = sub.find? name ∧
      match sub.takeGroup name with
      | (none, left) => left = sub
      | (some found, left) => Detached sub found left ∧ left.takeGroup name = (none, left) := by
  rw [takeGroup_eq]
  cases hd : sub.detach? name with
  | none => exact ⟨(find?_eq_none.2 (detach?_eq_none.1 hd)).symm, rfl⟩
  | some result =>
    obtain ⟨found, left⟩ := result
    obtain ⟨hne, path, hp, hg, rfl, hleft⟩ := detach?_place hd
    have hcut : CutOut found.hierarchy sub.descendants left.descendants := hleft ▸ cutOut_eraseAt hp hg
    have hblock : CutOut found.hierarchy sub.hierarchy left.hierarchy := by
      rw [hierarchy_eq sub, hierarchy_eq left]
      exact hcut.cons (by rw [hleft, label_eraseAt])
    refine ⟨(find?_of_mem h (mem_descendants_of_at? hp hg) hne).symm, ⟨⟨path, hp, hg, hleft⟩, hblock⟩, ?_⟩
    show left.takeGroup found.name = (none, left)
    rw [takeGroup_eq, detach?_eq_none.2 (not_mem_groupNames_of_cutOut h hne hcut)]
    rfl

/-- A group below one without a name, with another below it: both go, and the group beside them stays. -/
theorem takeGroup_exact_nested :
    let inner := ((new "a").addNode "x" ∅).pushChild (new "b")
    let tree := ((new "").pushChild ((new "").pushChild inner)).pushChild (new "c")
    tree.groupNames.Nodup ∧ ∃ left, tree.takeGroup "a" = (some inner, left) ∧ Detached tree inner left ∧
      left.takeGroup "a" = (none, left) ∧ left.groupNames = ["c"] := by
  intro inner tree
  have h : tree.groupNames.Nodup := by decide +kernel
  have hleft : tree.takeGroup "a" = (some inner, eraseAt [0, 0] tree) := rfl
  have hexact := (takeGroup_exact h "a").2
  rw [hleft] at hexact
  exact ⟨h, _, hleft, hexact.1, hexact.2, by decide +kernel⟩

/-- Where a name is given twice, a child is taken before the group further down that a search finds. -/
example :
    let tree := ((new "").pushChild ((new "t").pushChild ((new "s").addNode "x" ∅))).pushChild (new "s")
    (tree.find? "s").map (·.nodes.names) = some ["x"] ∧ (tree.takeGroup "s").1.map (·.nodes.names) = some [] := by
  decide +kernel

end DotLang.Subgraph
