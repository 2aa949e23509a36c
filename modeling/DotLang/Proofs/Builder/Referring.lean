import DotLang.Proofs.Builder.Closing

/-!
# What a reference to a group sees

While bodies are open, a group of one name may be in several places: finished, below the root or below an open
body, and in bodies of that name that are still open. A reference reads one of these copies, and the order in
which it looks is that of `copies`. Finished groups have distinct names, so all nodes of a group are seen unless
a body of its name is open; then what the other copies have is seen only if the first has it too.
-/

namespace DotLang.Builder
open Subgraph

/-- The groups whose bodies have ended: those below the root and those below the open bodies. -/
def finishedGroups (builder : Builder) : List Subgraph :=
  builder.graph.body.descendants ++ builder.bodies.flatMap descendants

/-- The node is in the hierarchy of a group of the name, finished or open. -/
def Records (builder : Builder) (name node : String) : Prop :=
  (∃ group ∈ builder.finishedGroups, group.name = name ∧ node ∈ group.nodeNames) ∨
    ∃ body ∈ builder.bodies, body.name = name ∧ node ∈ body.nodeNames

/-- The groups of a name: the one below the root, the open bodies, innermost first, and the one below an open body. -/
def copies (builder : Builder) (name : String) : List Subgraph :=
  (builder.graph.body.descendants ++ (builder.bodies ++ builder.bodies.flatMap descendants)).filter
    fun group => group.name == name

section
variable {builder : Builder} {name : String}

theorem mem_copies {group : Subgraph} :
    group ∈ builder.copies name ↔ (group ∈ builder.finishedGroups ∨ group ∈ builder.bodies) ∧ group.name = name := by
  unfold copies finishedGroups
  rw [List.mem_filter, List.mem_append, List.mem_append, List.mem_append, beq_iff_eq]
  tauto

theorem records_iff {node : String} : builder.Records name node ↔ ∃ copy ∈ builder.copies name, node ∈ copy.nodeNames := by
  unfold Records
  simp only [mem_copies]
  constructor
  · rintro (⟨group, hg, he, hm⟩ | ⟨body, hb, he, hm⟩)
    · exact ⟨group, ⟨Or.inl hg, he⟩, hm⟩
    · exact ⟨body, ⟨Or.inr hb, he⟩, hm⟩
  · rintro ⟨copy, ⟨hg | hb, he⟩, hm⟩
    · exact Or.inl ⟨copy, hg, he, hm⟩
    · exact Or.inr ⟨copy, hb, he, hm⟩

/-! ## Which copy is read -/

theorem find?_eq (sub : Subgraph) (hn : name ≠ "") :
    sub.find? name = sub.descendants.find? fun group => group.name == name := by
  rw [find?, tail_hierarchy, if_neg (by simpa using hn)]

/-- The walk through the open bodies comes to the innermost one of the name before it comes to a group below. -/
theorem findOpen?_eq (hn : name ≠ "") : ∀ {bodies : List Subgraph}, Unshadowed (bodies.map outline) →
    findOpen? name bodies = (bodies ++ bodies.flatMap descendants).find? fun group => group.name == name
  | [], _ => rfl
  | body :: outer, h => by
    have ih := findOpen?_eq hn h.2
    rw [List.find?_append] at ih
    rw [findOpen?, ih, List.cons_append, List.find?_cons, List.flatMap_cons, List.find?_append, List.find?_append,
      ← find?_eq body hn]
    by_cases hb : body.name = name
    · simp [hb, hn]
    have hskip : (body.name == name) = false := by simpa using hb
    rw [hskip]
    by_cases hm : name ∈ body.groupNames
    · -- A name below a body is that of no body around it.
      have houter : outer.find? (fun group => group.name == name) = none := by
        rw [List.find?_eq_none]
        intro other ho he
        refine h.1 name hm (List.mem_cons_of_mem _ ?_)
        rw [List.map_map]
        exact List.mem_map.2 ⟨other, ho, by simpa [outline] using he⟩
      simp [houter]
    · simp [Subgraph.find?_eq_none.2 hm]

theorem nodes_referToSubgraph (hd : Distinct builder) (hn : name ≠ "") :
    (builder.referToSubgraph name).1 = ((builder.copies name).head?.map nodeNames).getD [] := by
  have hfound : (builder.graph.body.find? name).or (findOpen? name builder.bodies) = (builder.copies name).head? := by
    rw [copies, List.head?_filter, List.find?_append, find?_eq _ hn, findOpen?_eq hn hd.unshadowed]
  unfold referToSubgraph
  rw [hfound]
  cases (builder.copies name).head? <;> rfl

/-! ## How many copies there are -/

/-- A name is below a group as often as it is listed there. -/
theorem count_groupNames (sub : Subgraph) (hn : name ≠ "") :
    sub.groupNames.count name = (sub.descendants.map Subgraph.name).count name := by
  rw [groupNames, properNames, List.count_filter (by simpa using hn), labelsBelow, List.map_map]
  rfl

theorem count_finishedGroups (builder : Builder) (hn : name ≠ "") :
    (builder.finishedGroups.map Subgraph.name).count name =
      (builder.graph.body.groupNames ++ (builder.bodies.map outline).flatMap Prod.snd).count name := by
  have hbelow : List.count name ∘ (fun sub => sub.descendants.map Subgraph.name) =
      List.count name ∘ fun sub : Subgraph => (outline sub).2 := funext fun sub => (count_groupNames sub hn).symm
  rw [finishedGroups, List.map_append, List.count_append, List.count_append, count_groupNames _ hn, List.map_flatMap,
    List.flatMap_map, List.count_flatMap, List.count_flatMap, hbelow]

/-- Names of finished groups are distinct; so a name of which no body is open has one copy at most. -/
theorem length_copies_le (hd : Distinct builder) (hn : name ≠ "") (ho : ∀ body ∈ builder.bodies, body.name ≠ name) :
    (builder.copies name).length ≤ 1 := by
  have hopen : (builder.bodies.filter fun group => group.name == name) = [] := by
    rw [List.filter_eq_nil_iff]
    intro body hb he
    exact ho body hb (by simpa using he)
  calc (builder.copies name).length
      = (builder.finishedGroups.filter fun group => group.name == name).length := by
        rw [copies, List.filter_append, List.filter_append, hopen, List.nil_append, ← List.filter_append, finishedGroups]
    _ = (builder.finishedGroups.map Subgraph.name).count name := by
        rw [← List.countP_eq_length_filter, List.count_eq_countP, List.countP_map]
        rfl
    _ ≤ 1 := by
        rw [count_finishedGroups builder hn]
        exact List.nodup_iff_count_le_one.1 hd.nodup name

/-! ## What is seen -/

theorem records_of_seen (hd : Distinct builder) (hn : name ≠ "") {node : String}
    (hm : node ∈ (builder.referToSubgraph name).1) : builder.Records name node := by
  rw [nodes_referToSubgraph hd hn] at hm
  rw [records_iff]
  cases hc : builder.copies name with
  | nil =>
    rw [hc] at hm
    cases hm
  | cons first others =>
    rw [hc] at hm
    exact ⟨first, List.mem_cons_self .., hm⟩

theorem seen_iff (hd : Distinct builder) (hn : name ≠ "") :
    (∀ node, node ∈ (builder.referToSubgraph name).1 ↔ builder.Records name node) ↔
      ∀ copy ∈ (builder.copies name).tail, ∀ node ∈ copy.nodeNames, node ∈ (builder.referToSubgraph name).1 := by
  constructor
  · intro hseen copy hc node hm
    exact (hseen node).2 (records_iff.2 ⟨copy, List.mem_of_mem_tail hc, hm⟩)
  · intro hothers node
    refine ⟨records_of_seen hd hn, fun hr => ?_⟩
    obtain ⟨copy, hc, hm⟩ := records_iff.1 hr
    have hnodes := nodes_referToSubgraph hd hn
    generalize builder.copies name = copies at hc hothers hnodes
    cases hc with
    | head =>
      rw [hnodes]
      exact hm
    | tail _ hc => exact hothers copy hc node hm

/-- A reference sees the nodes of one copy, the first, and no others. These are all nodes of the group if and only if
the other copies add none; and where no body of the name is open, there is no other copy. -/
theorem nodes_referToSubgraph_iff (h : builder.Reached) (hn : name ≠ "") :
    (builder.referToSubgraph name).1 = ((builder.copies name).head?.map nodeNames).getD [] ∧
      (∀ node ∈ (builder.referToSubgraph name).1, builder.Records name node) ∧
      ((∀ node, node ∈ (builder.referToSubgraph name).1 ↔ builder.Records name node) ↔
        ∀ copy ∈ (builder.copies name).tail, ∀ node ∈ copy.nodeNames, node ∈ (builder.referToSubgraph name).1) ∧
      ((∀ body ∈ builder.bodies, body.name ≠ name) →
        ∀ node, node ∈ (builder.referToSubgraph name).1 ↔ builder.Records name node) := by
  have hd : Distinct builder := h.sound.distinct
  refine ⟨nodes_referToSubgraph hd hn, fun node hm => records_of_seen hd hn hm, seen_iff hd hn, fun ho => ?_⟩
  have htail : (builder.copies name).tail = [] := by
    rw [← List.length_eq_zero_iff, List.length_tail, Nat.sub_eq_zero_iff_le]
    exact length_copies_le hd hn ho
  refine (seen_iff hd hn).2 fun copy hc => ?_
  rw [htail] at hc
  cases hc

end

/-- The group `s` ended with the node `a`, and is open again with the node `b`. -/
def reopenedBuilder : Builder :=
  ((((Builder.new "" ⟨false, false⟩).enterScope.openSubgraph "s").declareNode "a" ∅).closeSubgraph.2.openSubgraph "s"
    ).declareNode "b" ∅

theorem reached_reopenedBuilder : reopenedBuilder.Reached :=
  ⟨"", ⟨false, false⟩, ((((Steps.single (.opening _ "s")).tail (.node _ "a" Attributes.nodup_names_empty)).tail
    (.closing _)).tail (.opening _ "s")).tail (.node _ "b" Attributes.nodup_names_empty)⟩

theorem reached_closed_reopenedBuilder : reopenedBuilder.closeSubgraph.2.Reached := by
  obtain ⟨name, kind, h⟩ := reached_reopenedBuilder
  exact ⟨name, kind, h.tail (.closing _)⟩

/-- One copy of `s` is read while it is open again, and all nodes of it are seen when that body has ended. -/
theorem nodes_refer_reopenedBuilder :
    (reopenedBuilder.Reached ∧ "s" ≠ "" ∧ (reopenedBuilder.referToSubgraph "s").1 =
      ((reopenedBuilder.copies "s").head?.map nodeNames).getD []) ∧
    (reopenedBuilder.closeSubgraph.2.Reached ∧ (∀ body ∈ reopenedBuilder.closeSubgraph.2.bodies, body.name ≠ "s") ∧
      ∀ node, node ∈ (reopenedBuilder.closeSubgraph.2.referToSubgraph "s").1 ↔
        reopenedBuilder.closeSubgraph.2.Records "s" node) :=
  have hn : "s" ≠ "" := by decide
  have ho : ∀ body ∈ reopenedBuilder.closeSubgraph.2.bodies, body.name ≠ "s" := by decide
  ⟨⟨reached_reopenedBuilder, hn, (nodes_referToSubgraph_iff reached_reopenedBuilder hn).1⟩,
    ⟨reached_closed_reopenedBuilder, ho, (nodes_referToSubgraph_iff reached_closed_reopenedBuilder hn).2.2.2 ho⟩⟩

/-- A reference overlooks the body that is open: `b` is in it, but only `a` is seen. -/
theorem unseen_node_of_open_body : reopenedBuilder.Reached ∧ reopenedBuilder.Records "s" "b" ∧
    "b" ∉ (reopenedBuilder.referToSubgraph "s").1 :=
  ⟨reached_reopenedBuilder, Or.inr (by decide +kernel), by decide +kernel⟩

end DotLang.Builder
