import DotLang.Proofs.Occurrences
import DotLang.Proofs.Retention
import Mathlib.Data.List.Find

/-!
# Places in a tree of groups

The places of a tree, root first and then those of each child in turn, are the order in which the stack walk comes
to its groups, each once. A search for a name stops at the first place below the root that has it, whether the group
is looked at or changed there. A change leaves all other places as they are, but that the groups around have the
changed one below them.
-/

namespace DotLang.Subgraph

/-! ## The order of the places -/

mutual
/-- The places of a tree, each in front of those below it. -/
def places : Subgraph → List (List Nat)
  | ⟨_, _, _, children⟩ => [] :: placesAll children

def placesAll : List Subgraph → List (List Nat)
  | [] => []
  | child :: rest => child.places.map (0 :: ·) ++ (placesAll rest).map (List.modifyHead (· + 1))
end

/-- The group at a place below some groups. -/
def atAll? : List Nat → List Subgraph → Option Subgraph
  | [], _ => none
  | i :: path, subs => subs[i]?.bind (at? path)

theorem places_eq (sub : Subgraph) : sub.places = [] :: placesAll sub.children := by
  cases sub
  rw [places]

theorem atAll?_modifyHead (path : List Nat) (child : Subgraph) (rest : List Subgraph) :
    atAll? (path.modifyHead (· + 1)) (child :: rest) = atAll? path rest := by
  cases path <;> rfl

theorem mem_placesAll {path : List Nat} {subs : List Subgraph} : path ∈ placesAll subs ↔
    ∃ (i : Nat) (child : Subgraph) (below : List Nat),
      path = i :: below ∧ subs[i]? = some child ∧ below ∈ child.places := by
  induction subs generalizing path with
  | nil => simp [placesAll]
  | cons child rest ih =>
    rw [placesAll, List.mem_append, List.mem_map, List.mem_map]
    constructor
    · rintro (⟨below, hb, rfl⟩ | ⟨_, hp, rfl⟩)
      · exact ⟨0, child, below, rfl, rfl, hb⟩
      · obtain ⟨i, found, below, rfl, hi, hb⟩ := ih.1 hp
        exact ⟨i + 1, found, below, rfl, hi, hb⟩
    · rintro ⟨i, found, below, rfl, hi, hb⟩
      cases i with
      | zero =>
        obtain rfl := Option.some.inj hi
        exact Or.inl ⟨below, hb, rfl⟩
      | succ i => exact Or.inr ⟨i :: below, ih.2 ⟨i, found, below, rfl, hi, hb⟩, rfl⟩

theorem mem_places {path : List Nat} {sub : Subgraph} : path ∈ sub.places ↔ (at? path sub).isSome = true := by
  induction path generalizing sub with
  | nil => simp [places_eq, at?]
  | cons i path ih =>
    rw [places_eq, List.mem_cons, Option.isSome_iff_exists]
    simp only [reduceCtorEq, false_or, mem_placesAll, List.cons.injEq, at?_cons]
    constructor
    · rintro ⟨_, child, _, ⟨rfl, rfl⟩, hi, hp⟩
      obtain ⟨group, hg⟩ := Option.isSome_iff_exists.1 (ih.1 hp)
      exact ⟨group, child, hi, hg⟩
    · rintro ⟨group, child, hi, hg⟩
      exact ⟨i, child, path, ⟨rfl, rfl⟩, hi, ih.2 (by rw [hg]; rfl)⟩

mutual
theorem nodup_places : ∀ sub : Subgraph, sub.places.Nodup
  | ⟨_, _, _, children⟩ => by
    rw [places, List.nodup_cons]
    refine ⟨fun h => ?_, nodup_placesAll children⟩
    obtain ⟨_, _, _, h, -⟩ := mem_placesAll.1 h
    cases h

theorem nodup_placesAll : ∀ subs : List Subgraph, (placesAll subs).Nodup
  | [] => by
    rw [placesAll]
    exact List.nodup_nil
  | child :: rest => by
    rw [placesAll]
    have hrest : ((placesAll rest).map (List.modifyHead (· + 1))).Nodup := by
      refine (nodup_placesAll rest).map_on fun p hp q hq he => ?_
      obtain ⟨_, _, _, rfl, -⟩ := mem_placesAll.1 hp
      obtain ⟨_, _, _, rfl, -⟩ := mem_placesAll.1 hq
      simpa using he
    refine List.Nodup.append ((nodup_places child).map List.cons_injective) hrest fun path hp hq => ?_
    -- The first child is at 0, and the places below the others begin with a successor.
    obtain ⟨_, -, rfl⟩ := List.mem_map.1 hp
    obtain ⟨_, hq, he⟩ := List.mem_map.1 hq
    obtain ⟨_, _, _, rfl, -⟩ := mem_placesAll.1 hq
    simp at he
end

theorem mem_descendants_of_at? {path : List Nat} {sub group : Subgraph} (hp : path ≠ [])
    (h : at? path sub = some group) : group ∈ sub.descendants := by
  obtain ⟨i, path, rfl⟩ := List.exists_cons_of_ne_nil hp
  obtain ⟨child, hi, hg⟩ := at?_cons.1 h
  exact List.mem_flatMap.2 ⟨child, List.mem_of_getElem? hi, mem_hierarchy_iff_at?.2 ⟨path, hg⟩⟩

mutual
theorem map_at?_places : ∀ sub : Subgraph, (sub.places.map fun path => at? path sub) = sub.hierarchy.map some
  | ⟨name, attrs, nodes, children⟩ => by
    rw [places_eq, hierarchy_eq, List.map_cons, List.map_cons, descendants, ← map_atAll?_placesAll children]
    congr 1
    refine List.map_congr_left fun path hp => ?_
    obtain ⟨_, _, _, rfl, -⟩ := mem_placesAll.1 hp
    rfl

theorem map_atAll?_placesAll : ∀ subs : List Subgraph,
    ((placesAll subs).map fun path => atAll? path subs) = (subs.flatMap hierarchy).map some
  | [] => by
    rw [placesAll]
    rfl
  | child :: rest => by
    rw [placesAll, List.map_append, List.map_map, List.map_map, List.flatMap_cons, List.map_append,
      ← map_at?_places child, ← map_atAll?_placesAll rest]
    congr 1
    exact List.map_congr_left fun path _ => atAll?_modifyHead path child rest
end

/-! ## A change at a place -/

/-- The tree with the group at a place changed. -/
def modifyAt (f : Subgraph → Subgraph) : List Nat → Subgraph → Subgraph
  | [], sub => f sub
  | i :: path, sub => { sub with children := sub.children.modify i (modifyAt f path) }

section
variable {f : Subgraph → Subgraph}

theorem at?_modifyAt_cons (i : Nat) (path other : List Nat) (sub : Subgraph) :
    at? (i :: other) (modifyAt f (i :: path) sub) =
      sub.children[i]?.bind fun child => at? other (modifyAt f path child) := by
  show (sub.children.modify i (modifyAt f path))[i]?.bind (at? other) = _
  rw [List.getElem?_modify_eq, Option.map_eq_map, Option.bind_map]
  rfl

/-- The group at the place of a change, and those below it, are those of what it became. -/
theorem at?_modifyAt_append (path below : List Nat) (sub : Subgraph) :
    at? (path ++ below) (modifyAt f path sub) = (at? path sub).bind fun group => at? below (f group) := by
  induction path generalizing sub with
  | nil => rfl
  | cons i path ih =>
    rw [List.cons_append, at?_modifyAt_cons, at?, Option.bind_assoc]
    simp only [ih]

/-- The groups around the place of a change have it below them. -/
theorem at?_modifyAt_prefix (path below : List Nat) (sub : Subgraph) :
    at? path (modifyAt f (path ++ below) sub) = (at? path sub).map (modifyAt f below) := by
  induction path generalizing sub with
  | nil => rfl
  | cons i path ih =>
    rw [List.cons_append, at?_modifyAt_cons, at?, Option.map_bind]
    simp only [ih]
    rfl

theorem at?_modifyAt_of_apart {path other : List Nat} (hp : ¬ path <+: other) (ho : ¬ other <+: path) (sub : Subgraph) :
    at? other (modifyAt f path sub) = at? other sub := by
  induction path generalizing other sub with
  | nil => exact absurd List.nil_prefix hp
  | cons i path ih =>
    cases other with
    | nil => exact absurd List.nil_prefix ho
    | cons j other =>
      by_cases hij : i = j
      · subst hij
        rw [List.cons_prefix_cons] at hp ho
        have hbelow := ih (fun h => hp ⟨rfl, h⟩) (fun h => ho ⟨rfl, h⟩)
        rw [at?_modifyAt_cons, at?]
        simp only [hbelow]
      · show (sub.children.modify i (modifyAt f path))[j]?.bind (at? other) = sub.children[j]?.bind (at? other)
        rw [List.getElem?_modify_ne _ _ hij]

end

/-- A tree that was changed at a place: there is what the group became, with what is below it, and no other group
became another. -/
structure ChangedAt (f : Subgraph → Subgraph) (path : List Nat) (sub result : Subgraph) : Prop where
  there : ∀ below, at? (path ++ below) result = (at? path sub).bind fun group => at? below (f group)
  around : ∀ above below, path = above ++ below → below ≠ [] →
    (at? above result).map label = (at? above sub).map label
  apart : ∀ other, ¬ path <+: other → ¬ other <+: path → at? other result = at? other sub

theorem changedAt_modifyAt (f : Subgraph → Subgraph) (path : List Nat) (sub : Subgraph) :
    ChangedAt f path sub (modifyAt f path sub) where
  there below := at?_modifyAt_append path below sub
  around above below he hne := by
    obtain ⟨i, below, rfl⟩ := List.exists_cons_of_ne_nil hne
    rw [he, at?_modifyAt_prefix, Option.map_map]
    rfl
  apart _ hp ho := at?_modifyAt_of_apart hp ho sub

/-! ## The first place of a name -/

def hasName (name : String) (group? : Option Subgraph) : Bool := group?.any fun group => group.name == name

/-- The first place below the root at which a group has the name. -/
def firstPlace? (sub : Subgraph) (name : String) : Option (List Nat) :=
  if name.isEmpty then none else sub.places.tail.find? fun path => hasName name (at? path sub)

theorem hasName_iff {name : String} {group? : Option Subgraph} :
    hasName name group? = true ↔ ∃ group, group? = some group ∧ group.name = name := by
  cases group? <;> simp [hasName]

theorem firstPlace?_eq_some {sub : Subgraph} {name : String} {path : List Nat} (h : sub.firstPlace? name = some path) :
    path ≠ [] ∧ ∃ group, at? path sub = some group ∧ group.name = name := by
  unfold firstPlace? at h
  split at h
  · cases h
  · have hm := List.mem_of_find?_eq_some h
    have hname := List.find?_some h
    rw [places_eq, List.tail_cons] at hm
    obtain ⟨_, _, _, rfl, -⟩ := mem_placesAll.1 hm
    exact ⟨List.cons_ne_nil _ _, hasName_iff.1 hname⟩

theorem find?_of_map_eq {α β : Type} {p : α → Bool} {g : β → Option α} : ∀ {entries : List α} {keys : List β},
    keys.map g = entries.map some → entries.find? p = (keys.find? fun key => (g key).any p).bind g
  | [], [], _ => rfl
  | [], _ :: _, h => by cases h
  | _ :: _, [], h => by cases h
  | entry :: entries, key :: keys, h => by
    rw [List.map_cons, List.map_cons, List.cons.injEq] at h
    have ih := find?_of_map_eq (p := p) h.2
    rw [List.find?_cons, List.find?_cons, h.1, Option.any_some]
    cases p entry with
    | true => exact h.1.symm
    | false => exact ih

theorem find?_eq_firstPlace? (sub : Subgraph) (name : String) :
    sub.find? name = (sub.firstPlace? name).bind fun path => at? path sub := by
  have hbelow : (sub.places.tail.map fun path => at? path sub) = sub.hierarchy.tail.map some := by
    rw [List.map_tail, List.map_tail, map_at?_places]
  unfold find? firstPlace?
  split
  · rfl
  · exact find?_of_map_eq hbelow

section
variable {name : String} {f : Subgraph → Subgraph}

/-- Groups with the one at a place below them changed. -/
def modifyAtAll (f : Subgraph → Subgraph) : List Nat → List Subgraph → List Subgraph
  | [], subs => subs
  | i :: path, subs => subs.modify i (modifyAt f path)

theorem modifyAtAll_modifyHead (path : List Nat) (child : Subgraph) (rest : List Subgraph) :
    modifyAtAll f (path.modifyHead (· + 1)) (child :: rest) = child :: modifyAtAll f path rest := by
  cases path <;> rfl

mutual
theorem modifyBelow?_eq : ∀ sub : Subgraph, modifyBelow? name f sub =
    (sub.places.tail.find? fun path => hasName name (at? path sub)).map fun path => modifyAt f path sub
  | ⟨own, attrs, nodes, children⟩ => by
    rw [modifyBelow?, modifyFirst?_eq children, places_eq, List.tail_cons, Option.map_map]
    have hat : ∀ path ∈ placesAll children, at? path ⟨own, attrs, nodes, children⟩ = atAll? path children := by
      intro path hp
      obtain ⟨_, _, _, rfl, -⟩ := mem_placesAll.1 hp
      rfl
    have hfind : ((placesAll children).find? fun path => hasName name (atAll? path children)) =
        (placesAll children).find? fun path => hasName name (at? path ⟨own, attrs, nodes, children⟩) :=
      List.find?_congr fun path hp => by rw [hat path hp]
    rw [hfind]
    refine Option.map_congr fun path hp => ?_
    obtain ⟨_, _, _, rfl, -⟩ := mem_placesAll.1 (List.mem_of_find?_eq_some hp)
    rfl

theorem modifyFirst?_eq : ∀ subs : List Subgraph, modifyFirst? name f subs =
    ((placesAll subs).find? fun path => hasName name (atAll? path subs)).map fun path => modifyAtAll f path subs
  | [] => by
    rw [modifyFirst?, placesAll]
    rfl
  | child :: rest => by
    have hown : hasName name (atAll? [0] (child :: rest)) = (child.name == name) := rfl
    rw [modifyFirst?, modifyBelow?_eq child, modifyFirst?_eq rest, placesAll, places_eq, List.tail_cons,
      List.map_cons, List.cons_append, List.find?_cons, hown]
    by_cases hn : child.name = name
    · rw [if_pos hn, beq_iff_eq.2 hn]
      rfl
    · rw [if_neg hn, beq_eq_false_iff_ne.2 hn, List.find?_append, List.find?_map, List.find?_map]
      have hbelow : ((fun path => hasName name (atAll? path (child :: rest))) ∘ (0 :: ·)) =
          fun path => hasName name (at? path child) := rfl
      have hbehind : ((fun path => hasName name (atAll? path (child :: rest))) ∘ List.modifyHead (· + 1)) =
          fun path => hasName name (atAll? path rest) := by
        funext path
        exact congrArg _ (atAll?_modifyHead path child rest)
      rw [hbelow, hbehind]
      cases (placesAll child.children).find? fun path => hasName name (at? path child) with
      | some path => rfl
      | none =>
        simp only [Option.map_none, Option.none_or, Option.map_map]
        congr 1
        funext path
        exact (modifyAtAll_modifyHead path child rest).symm
end

theorem modify?_eq_firstPlace? (sub : Subgraph) :
    sub.modify? name f = (sub.firstPlace? name).map fun path => modifyAt f path sub := by
  unfold modify? firstPlace?
  split
  · rfl
  · exact modifyBelow?_eq sub

end

end DotLang.Subgraph
