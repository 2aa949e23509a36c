import DotLang.Proofs.Builder.Referring
import DotLang.Proofs.Searching

/-!
# Reopened groups

A group whose name was used before goes into what has the name, and a new one is given back. Whether the name was
used is asked first, and then two searches look for what has it, one in the finished part and one through the open
bodies. All three go along the same tree, so they find the same, and one group absorbs the reopened one.
-/

namespace DotLang.Builder
open Subgraph

/-- The groups of a builder as one tree, whose root is none of them: those below the root of the graph, and behind
them the open bodies, innermost first. -/
def whole (builder : Builder) : Subgraph := ⟨"", ∅, ∅, builder.graph.body.children ++ builder.bodies⟩

/-- The builder whose open bodies have taken in the nodes of a group. -/
def receiving (sub : Subgraph) (builder : Builder) : Builder :=
  { builder with bodies := builder.bodies.map (receive sub) }

/-! ## One search -/

section
variable {name : String} {f : Subgraph → Subgraph}

theorem modify?_of_ne (sub : Subgraph) (hn : name ≠ "") : sub.modify? name f = modifyBelow? name f sub := by
  rw [modify?, if_neg (by simpa using hn)]

theorem modify?_eq_modifyFirst? (sub : Subgraph) (hn : name ≠ "") :
    sub.modify? name f = (modifyFirst? name f sub.children).map fun children => { sub with children } := by
  rw [modify?_of_ne sub hn]
  cases sub
  rw [modifyBelow?]

theorem modifyFirst?_append (a b : List Subgraph) : modifyFirst? name f (a ++ b) =
    ((modifyFirst? name f a).map (· ++ b)).or ((modifyFirst? name f b).map (a ++ ·)) := by
  induction a with
  | nil => simp [modifyFirst?]
  | cons child rest ih =>
    rw [List.cons_append, modifyFirst?, modifyFirst?, ih]
    split
    · rfl
    · cases modifyBelow? name f child with
      | some changed => rfl
      | none => cases modifyFirst? name f rest <;> simp [Function.comp_def]

/-- The walk through the open bodies is a search of the groups in a list. -/
theorem absorbOpen?_eq {sub : Subgraph} (hn : sub.name ≠ "") (bodies : List Subgraph) :
    absorbOpen? sub bodies = modifyFirst? sub.name (fun group => group.absorb sub) bodies := by
  induction bodies with
  | nil => rw [absorbOpen?, modifyFirst?]
  | cons body outer ih =>
    by_cases he : body.name = sub.name
    · rw [absorbOpen?, modifyFirst?, if_pos he, if_pos he]
    · cases hb : modifyBelow? sub.name (fun group => group.absorb sub) body with
      | some changed => simp [absorbOpen?, modifyFirst?, modify?_of_ne body hn, he, hb]
      | none => simp [absorbOpen?, modifyFirst?, modify?_of_ne body hn, he, hb, ih]

theorem modify?_whole (builder : Builder) (hn : name ≠ "") : builder.whole.modify? name f =
    ((builder.graph.body.modify? name f).map fun body =>
        { builder.whole with children := body.children ++ builder.bodies }).or
      ((modifyFirst? name f builder.bodies).map fun bodies =>
        { builder.whole with children := builder.graph.body.children ++ bodies }) := by
  rw [modify?_eq_modifyFirst? _ hn, modify?_eq_modifyFirst? _ hn, whole, modifyFirst?_append]
  cases modifyFirst? name f builder.graph.body.children <;> cases modifyFirst? name f builder.bodies <;> rfl

theorem mem_descendants_whole {builder : Builder} {group : Subgraph} :
    group ∈ builder.whole.descendants ↔ group ∈ builder.finishedGroups ∨ group ∈ builder.bodies := by
  have hbodies : group ∈ builder.bodies.flatMap hierarchy ↔
      group ∈ builder.bodies.flatMap descendants ∨ group ∈ builder.bodies := by
    simp only [List.mem_flatMap, hierarchy_eq, List.mem_cons]
    constructor
    · rintro ⟨body, hb, rfl | hg⟩
      · exact Or.inr hb
      · exact Or.inl ⟨body, hb, hg⟩
    · rintro (⟨body, hb, hg⟩ | hb)
      · exact ⟨body, hb, Or.inr hg⟩
      · exact ⟨group, hb, Or.inl rfl⟩
  rw [descendants, whole, List.flatMap_append, List.mem_append, hbodies, finishedGroups, List.mem_append, or_assoc]
  rfl

theorem isKnown_iff_mem (builder : Builder) (name : String) :
    builder.isKnown name = true ↔ name ∈ builder.whole.groupNames := by
  rw [isKnown_iff, @mem_groupNames _ builder.whole]
  refine and_congr_right fun hn => ?_
  simp only [mem_descendants_whole, finishedGroups, List.mem_append, List.mem_flatMap, mem_groupNames]
  constructor
  · rintro (⟨-, group, hg, he⟩ | ⟨body, hb, he | ⟨-, group, hg, he⟩⟩)
    · exact ⟨group, Or.inl (Or.inl hg), he⟩
    · exact ⟨body, Or.inr hb, he⟩
    · exact ⟨group, Or.inl (Or.inr ⟨body, hb, hg⟩), he⟩
  · rintro ⟨group, (hg | ⟨body, hb, hg⟩) | hb, he⟩
    · exact Or.inl ⟨hn, group, hg, he⟩
    · exact Or.inr ⟨body, hb, Or.inr ⟨hn, group, hg, he⟩⟩
    · exact Or.inr ⟨group, hb, Or.inl he⟩

theorem firstPlace?_eq_none {tree : Subgraph} : tree.firstPlace? name = none ↔ name ∉ tree.groupNames := by
  rw [← modify?_eq_none (f := id), modify?_eq_firstPlace?, Option.map_eq_none_iff]

/-! ## Taking in nodes moves nothing -/

theorem places_of_grows {a b : List Subgraph} (h : List.Forall₂ BodyGrows a b) :
    placesAll b = placesAll a ∧ ∀ path, hasName name (atAll? path b) = hasName name (atAll? path a) := by
  induction h with
  | nil => exact ⟨rfl, fun _ => rfl⟩
  | @cons body grown rest rest' hb _ ih =>
    have hat (path : List Nat) : hasName name (at? path grown) = hasName name (at? path body) := by
      cases path with
      | nil =>
        show (grown.name == name) = (body.name == name)
        rw [hb.name]
      | cons i path => rw [at?, at?, hb.children]
    refine ⟨?_, fun path => ?_⟩
    · rw [placesAll, placesAll, ih.1, places_eq, places_eq, hb.children]
    · cases path with
      | nil => rfl
      | cons i path =>
        cases i with
        | zero => exact hat path
        | succ i => exact ih.2 (i :: path)

theorem at?_eq_atAll? {path : List Nat} (hp : path ≠ []) (sub : Subgraph) : at? path sub = atAll? path sub.children := by
  obtain ⟨i, path, rfl⟩ := List.exists_cons_of_ne_nil hp
  rfl

theorem firstPlace?_receiving (sub : Subgraph) (builder : Builder) :
    (builder.receiving sub).whole.firstPlace? name = builder.whole.firstPlace? name := by
  have hgrows : List.Forall₂ BodyGrows builder.whole.children (builder.receiving sub).whole.children :=
    List.rel_append (List.forall₂_same.2 fun _ _ => .refl _) (grows_receive sub builder.bodies)
  obtain ⟨hplaces, hnames⟩ := @places_of_grows name _ _ hgrows
  unfold firstPlace?
  rw [places_eq, places_eq, List.tail_cons, List.tail_cons, hplaces]
  split
  · rfl
  · refine List.find?_congr fun path hp => ?_
    obtain ⟨_, _, _, rfl, -⟩ := mem_placesAll.1 hp
    rw [at?_eq_atAll? (List.cons_ne_nil _ _), at?_eq_atAll? (List.cons_ne_nil _ _)]
    exact hnames _

end

/-! ## Merging -/

section
variable {sub : Subgraph} {builder : Builder}

theorem mem_receive_of_nodeNames {name : String} (h : name ∈ sub.nodeNames) (body : Subgraph) :
    name ∈ (receive sub body).nodes.names := by
  rw [mem_nodes_receive, memberNames_eq]
  exact Or.inr (List.mem_eraseDups.1 h)

/-- A group of the builder, at a place of the whole tree, has absorbed another of its name: no other group has
changed, but for the nodes that the open bodies took in, and nothing else has. -/
structure Absorbs (sub : Subgraph) (path : List Nat) (builder result : Builder) : Prop where
  existing : path ≠ [] ∧ ∃ group, at? path builder.whole = some group ∧ group.name = sub.name
  changed : ChangedAt (fun group => group.absorb sub) path (builder.receiving sub).whole result.whole
  root : result.graph.body.label = builder.graph.body.label
  bodies : result.bodies.map Subgraph.name = builder.bodies.map Subgraph.name
  kind : result.graph.kind = builder.graph.kind
  edges : result.graph.edges = builder.graph.edges
  scopes : result.scopes = builder.scopes

theorem mergeReopened_of_place {path : List Nat} (h : builder.whole.firstPlace? sub.name = some path) :
    ∃ result, builder.mergeReopened sub = (result, none) ∧ Absorbs sub path builder result ∧
      ∀ body ∈ result.bodies, ∀ name ∈ sub.nodeNames, name ∈ body.nodes.names := by
  have hplace := firstPlace?_eq_some h
  have hused : sub.name ∈ builder.whole.groupNames := by
    by_contra hu
    rw [← firstPlace?_eq_none, h] at hu
    cases hu
  have hk : builder.isKnown sub.name = true := (isKnown_iff_mem builder sub.name).2 hused
  have hn : sub.name ≠ "" := (mem_groupNames.1 hused).1
  -- One search of the whole tree finds the place, and both searches together come to the same.
  have hsearch : (builder.receiving sub).whole.modify? sub.name (fun group => group.absorb sub) =
      some (modifyAt (fun group => group.absorb sub) path (builder.receiving sub).whole) := by
    rw [modify?_eq_firstPlace?, firstPlace?_receiving, h]
    rfl
  have hchanged := changedAt_modifyAt (fun group => group.absorb sub) path (builder.receiving sub).whole
  rw [modify?_whole _ hn] at hsearch
  cases hm : builder.graph.body.modify? sub.name (fun group => group.absorb sub) with
  | some body =>
    have hwhole := hsearch
    rw [show (builder.receiving sub).graph.body = builder.graph.body from rfl, hm] at hwhole
    refine ⟨_, mergeReopened_of_finished hk hm, ⟨hplace, ?_, (modify?_eq_some hm).2.1, ?_, rfl, rfl, rfl⟩, ?_⟩
    · rw [← Option.some.inj hwhole] at hchanged
      exact hchanged
    · exact BodyGrows.names (grows_receive sub builder.bodies)
    · intro body hb name hname
      obtain ⟨old, -, rfl⟩ := List.mem_map.1 hb
      exact mem_receive_of_nodeNames hname old
  | none =>
    cases ho : absorbOpen? sub (builder.bodies.map (receive sub)) with
    | none => exact absurd ho (absorbOpen?_ne_none hk hm)
    | some bodies =>
      have hwhole := hsearch
      rw [show (builder.receiving sub).graph.body = builder.graph.body from rfl, hm,
        show (builder.receiving sub).bodies = builder.bodies.map (receive sub) from rfl, ← absorbOpen?_eq hn, ho] at hwhole
      obtain ⟨inner, body, body', outer, he, rfl, ha⟩ := absorbOpen?_eq_some ho
      refine ⟨_, mergeReopened_of_open hk hm ho, ⟨hplace, ?_, rfl, ?_, rfl, rfl, rfl⟩, ?_⟩
      · rw [← Option.some.inj hwhole] at hchanged
        exact hchanged
      · rw [← BodyGrows.names (grows_receive sub builder.bodies), he]
        simp only [List.map_append, List.map_cons, ha.name]
      · intro found hf name hname
        have hreceived (other : Subgraph) (hother : other ∈ inner ++ body :: outer) : name ∈ other.nodes.names := by
          rw [← he] at hother
          obtain ⟨old, -, rfl⟩ := List.mem_map.1 hother
          exact mem_receive_of_nodeNames hname old
        rcases List.mem_append.1 hf with hf | hf
        · exact hreceived found (List.mem_append_left _ hf)
        · rcases List.mem_cons.1 hf with rfl | hf
          · exact ha.nodes name (hreceived body (by simp))
          · exact hreceived found (by simp [hf])

theorem mergeReopened_of_no_place (h : builder.whole.firstPlace? sub.name = none) :
    builder.mergeReopened sub = (builder, some sub) := by
  apply mergeReopened_of_unknown
  rw [Bool.eq_false_iff, Ne, isKnown_iff_mem]
  exact firstPlace?_eq_none.1 h

end

/-- A group comes back if and only if it has no name, or one that is neither that of a finished group nor of an open
body; the builder is then as it was. Otherwise the first group of its name in the whole tree has absorbed it, alone,
and all its nodes are in every open body. Where the finished part has no group of a known name, the walk through the
open bodies does not come to its end without one. -/
theorem mergeReopened_exact (builder : Builder) (sub : Subgraph) :
    ((builder.mergeReopened sub).2.isSome = true ↔ sub.name = "" ∨
      ∀ group, group ∈ builder.finishedGroups ∨ group ∈ builder.bodies → group.name ≠ sub.name) ∧
    (match builder.whole.firstPlace? sub.name with
      | none => builder.mergeReopened sub = (builder, some sub)
      | some path => ∃ result, builder.mergeReopened sub = (result, none) ∧ Absorbs sub path builder result ∧
          ∀ body ∈ result.bodies, ∀ name ∈ sub.nodeNames, name ∈ body.nodes.names) ∧
    (builder.isKnown sub.name = true →
      builder.graph.modifySubgraph? sub.name (fun group => group.absorb sub) = none →
      absorbOpen? sub (builder.receiving sub).bodies ≠ none) := by
  have hnew : sub.name ∉ builder.whole.groupNames ↔ sub.name = "" ∨
      ∀ group, group ∈ builder.finishedGroups ∨ group ∈ builder.bodies → group.name ≠ sub.name := by
    rw [mem_groupNames, not_and_or, Decidable.not_not, not_exists]
    simp only [mem_descendants_whole, not_and]
  refine ⟨?_, ?_, fun hk hm => absorbOpen?_ne_none hk (Option.map_eq_none_iff.1 hm)⟩
  · rw [← hnew, ← firstPlace?_eq_none]
    cases h : builder.whole.firstPlace? sub.name with
    | none => simp [mergeReopened_of_no_place h]
    | some path =>
      obtain ⟨result, hr, -⟩ := mergeReopened_of_place h
      simp [hr]
  · cases h : builder.whole.firstPlace? sub.name with
    | none => exact mergeReopened_of_no_place h
    | some path => exact mergeReopened_of_place h

/-- The bodies of `t` and of `u` inside of it are open, and a group `s` has ended in `t`. -/
def twoOpenBuilder : Builder :=
  ((((Builder.new "" ⟨false, false⟩).enterScope.openSubgraph "t").openSubgraph "s").declareNode "a" ∅
    ).closeSubgraph.2.openSubgraph "u"

/-- The group `s` that is below the outer body absorbs another of its name, the nodes of which come into both bodies. -/
theorem mergeReopened_exact_twoOpen :
    let sub := (Subgraph.new "s").addNode "b" ∅
    twoOpenBuilder.whole.firstPlace? "s" = some [1, 0] ∧
      (∃ result, twoOpenBuilder.mergeReopened sub = (result, none) ∧ Absorbs sub [1, 0] twoOpenBuilder result ∧
        "b" ∈ sub.nodeNames ∧ ∀ body ∈ result.bodies, "b" ∈ body.nodes.names) ∧
      twoOpenBuilder.isKnown "s" = true ∧
      twoOpenBuilder.graph.modifySubgraph? "s" (fun group => group.absorb sub) = none ∧
      absorbOpen? sub (twoOpenBuilder.receiving sub).bodies ≠ none := by
  intro sub
  obtain ⟨-, hmerge, hends⟩ := mergeReopened_exact twoOpenBuilder sub
  have hplace : twoOpenBuilder.whole.firstPlace? sub.name = some [1, 0] := by decide +kernel
  have hknown : twoOpenBuilder.isKnown sub.name = true := by decide +kernel
  have hfinished : twoOpenBuilder.graph.modifySubgraph? sub.name (fun group => group.absorb sub) = none :=
    Option.isNone_iff_eq_none.1 (by decide +kernel)
  have hb : "b" ∈ sub.nodeNames := by decide +kernel
  rw [hplace] at hmerge
  obtain ⟨result, hr, ha, hnodes⟩ := hmerge
  exact ⟨hplace, ⟨result, hr, ha, hb, fun body hbody => hnodes body hbody "b" hb⟩, hknown, hfinished,
    hends hknown hfinished⟩

end DotLang.Builder
