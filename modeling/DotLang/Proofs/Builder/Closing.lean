import DotLang.Proofs.Alike
import DotLang.Proofs.Builder.Holding
import Mathlib.Logic.Function.Iterate

/-!
# What an edge does to its nodes

An edge gives the defaults to those of its nodes that are not in the root yet, and to no others: when all
bodies have ended, the defaults stand under whatever such a node had in the bodies that were open. All
other nodes are as if there were no edge.
-/

namespace DotLang.Builder
open Subgraph

/-- All open bodies end, the innermost first. -/
def closeAll (builder : Builder) : Builder :=
  (fun builder => builder.closeSubgraph.2)^[builder.bodies.length] builder

/-- The builders that calls lead to, with collections of attributes in which no name stands twice. -/
def Reached (builder : Builder) : Prop :=
  ∃ name kind, Steps (fun attrs => attrs.names.Nodup) (Builder.new name kind).enterScope builder

/-! ## Builders that differ in what the root has of a node -/

/-- The builder `b` is as `a` to the node, but in the root it has `first` under what it has there in `a`. -/
structure Preset (node : String) (first : Attributes) (a b : Builder) : Prop where
  value : b.graph.nodes.attrsOf node = first.merge (a.graph.nodes.attrsOf node)
  nodup : (a.graph.nodes.attrsOf node).names.Nodup
  below : AllAlike node a.graph.body.children b.graph.body.children
  bodies : AllAlike node a.bodies b.bodies

section
variable {node : String} {first : Attributes} {a b : Builder} {s t : Subgraph}

theorem map_outline_of_alike {as bs : List Subgraph} (h : AllAlike node as bs) : bs.map outline = as.map outline := by
  induction as generalizing bs with
  | nil =>
    cases h
    rfl
  | cons a as ih =>
    cases h with
    | cons head tail => rw [List.map_cons, List.map_cons, ih tail, outline, outline, head.name, head.groupNames]

theorem Preset.isKnown (h : Preset node first a b) (name : String) : b.isKnown name = a.isKnown name := by
  have hopen (bodies : List Subgraph) : (∃ body ∈ bodies, body.name = name ∨ name ∈ body.groupNames) ↔
      ∃ pair ∈ bodies.map outline, pair.1 = name ∨ name ∈ pair.2 := by
    simp [outline]
  rw [Bool.eq_iff_iff, isKnown_iff, isKnown_iff, hopen, hopen, map_outline_of_alike h.bodies, h.below.groupNames]

theorem alike_receive (hs : Alike node s t) {as bs : List Subgraph} (h : AllAlike node as bs) :
    AllAlike node (as.map (receive s)) (bs.map (receive t)) :=
  h.map fun hb => hb.withNodes hs

theorem alike_absorbOpen? (hs : Alike node s t) {as bs : List Subgraph} (h : AllAlike node as bs) :
    Option.Rel (AllAlike node) (absorbOpen? s as) (absorbOpen? t bs) := by
  induction as generalizing bs with
  | nil =>
    cases h
    exact .none
  | cons a as ih =>
    cases h with
    | @cons _ b _ bs head tail =>
      rw [Builder.absorbOpen?, Builder.absorbOpen?, head.name, hs.name]
      by_cases hn : a.name = s.name
      · rw [if_pos hn, if_pos hn]
        exact .some (.cons (head.absorb hs) tail)
      · rw [if_neg hn, if_neg hn]
        have hm := head.modify? s.name (fun hg => hg.absorb hs)
        have ht := ih tail
        revert hm ht
        generalize a.modify? s.name (fun group => group.absorb s) = c
        generalize b.modify? s.name (fun group => group.absorb t) = d
        generalize Builder.absorbOpen? s as = cs
        generalize Builder.absorbOpen? t bs = ds
        rintro (hm | _) ht
        · exact .some (.cons hm tail)
        · cases ht with
          | some ht => exact .some (.cons head ht)
          | none => exact .none

theorem Preset.attach_root (h : Preset node first a b) (hs : Alike node s t) :
    Preset node first { a with graph := a.graph.attach s } { b with graph := b.graph.attach t } where
  value := by
    show (b.graph.body.attach t).nodes.attrsOf node = first.merge ((a.graph.body.attach s).nodes.attrsOf node)
    have hvalue : b.graph.body.nodes.attrsOf node = first.merge (a.graph.body.nodes.attrsOf node) := h.value
    rw [nodes_attach, nodes_attach, (hs.attrsOf_addAll _).1, (hs.attrsOf_addAll _).2, hvalue,
      Attributes.merge_assoc (b := a.graph.body.nodes.attrsOf node) h.nodup]
  nodup := by
    show ((a.graph.body.attach s).nodes.attrsOf node).names.Nodup
    rw [nodes_attach, (hs.attrsOf_addAll _).1]
    exact Attributes.nodup_names_merge h.nodup _
  below := h.below.attach hs
  bodies := h.bodies

/-- A group that is attached goes to the same place in both. -/
theorem Preset.attach (h : Preset node first a b) (hs : Alike node s t) :
    Preset node first (a.attach s) (b.attach t) := by
  by_cases hb : a.bodies = []
  · rw [attach_of_nil hb, attach_of_nil (h.bodies.eq_nil.2 hb)]
    exact h.attach_root hs
  have hb' : b.bodies ≠ [] := fun hnil => hb (h.bodies.eq_nil.1 hnil)
  -- Both know the same names, so the group takes the same way in both.
  have hknown : b.isKnown t.name = a.isKnown s.name := by rw [h.isKnown, hs.name]
  cases hk : a.isKnown s.name with
  | false =>
    rw [attach_of_returned hb (mergeReopened_of_unknown hk),
      attach_of_returned hb' (mergeReopened_of_unknown (hknown.trans hk))]
    have hbodies := h.bodies
    obtain ⟨body, outer, ha⟩ := List.exists_cons_of_ne_nil hb
    obtain ⟨body', outer', hb'⟩ := List.exists_cons_of_ne_nil hb'
    rw [ha, hb'] at hbodies
    cases hbodies with
    | cons head tail =>
      simp only [modifyCurrent, ha, hb']
      exact ⟨h.value, h.nodup, h.below, .cons (head.attach hs) tail⟩
  | true =>
    have hroot := h.below.modify? s.name (fun hg => hg.absorb hs)
    have hopen := alike_absorbOpen? hs (alike_receive hs h.bodies)
    have hm' : b.graph.body.modify? t.name (fun group => group.absorb t) =
        b.graph.body.modify? s.name (fun group => group.absorb t) := by rw [hs.name]
    cases hm : a.graph.body.modify? s.name (fun group => group.absorb s) with
    | some c =>
      rw [hm] at hroot
      cases hd : b.graph.body.modify? s.name (fun group => group.absorb t) with
      | none =>
        rw [hd] at hroot
        cases hroot
      | some d =>
        rw [hd] at hroot
        obtain ⟨hc, hdl, hr⟩ : _ ∧ _ ∧ _ := by cases hroot; assumption
        rw [attach_of_merged hb (mergeReopened_of_finished hk hm),
          attach_of_merged hb' (mergeReopened_of_finished (hknown.trans hk) (hm'.trans hd))]
        have hcn : c.nodes = a.graph.nodes := congrArg (·.2.2) hc
        have hdn : d.nodes = b.graph.nodes := congrArg (·.2.2) hdl
        refine ⟨?_, ?_, hr, alike_receive hs h.bodies⟩
        · show d.nodes.attrsOf node = first.merge (c.nodes.attrsOf node)
          rw [hcn, hdn, h.value]
        · show (c.nodes.attrsOf node).names.Nodup
          rw [hcn]
          exact h.nodup
    | none =>
      rw [hm] at hroot
      cases hd : b.graph.body.modify? s.name (fun group => group.absorb t) with
      | some d =>
        rw [hd] at hroot
        cases hroot
      | none =>
        obtain ⟨as, ha⟩ := Option.ne_none_iff_exists'.1 (absorbOpen?_ne_none hk hm)
        obtain ⟨bs, hbs⟩ := Option.ne_none_iff_exists'.1 (absorbOpen?_ne_none (hknown.trans hk) (hm'.trans hd))
        rw [ha, hbs] at hopen
        have hbodies : AllAlike node as bs := by cases hopen; assumption
        rw [attach_of_merged hb (mergeReopened_of_open hk hm ha),
          attach_of_merged hb' (mergeReopened_of_open (hknown.trans hk) (hm'.trans hd) hbs)]
        exact ⟨h.value, h.nodup, h.below, hbodies⟩

theorem Preset.closeSubgraph (h : Preset node first a b) : Preset node first a.closeSubgraph.2 b.closeSubgraph.2 := by
  have hbodies := h.bodies
  rcases closeSubgraph_cases a with ⟨ha, he⟩ | ⟨s, outer, ha, he⟩
  · rcases closeSubgraph_cases b with ⟨hb, he'⟩ | ⟨t, outer', hb, he'⟩
    · rw [he, he']
      exact ⟨h.value, h.nodup, h.below, h.bodies⟩
    · rw [ha, hb] at hbodies
      cases hbodies
  · rcases closeSubgraph_cases b with ⟨hb, he'⟩ | ⟨t, outer', hb, he'⟩
    · rw [ha, hb] at hbodies
      cases hbodies
    · rw [ha, hb] at hbodies
      cases hbodies with
      | cons head tail =>
        rw [he, he']
        exact Preset.attach ⟨h.value, h.nodup, h.below, tail⟩ head

theorem Preset.iterate (h : Preset node first a b) (n : Nat) :
    Preset node first ((fun builder => builder.closeSubgraph.2)^[n] a)
      ((fun builder => builder.closeSubgraph.2)^[n] b) := by
  induction n generalizing a b with
  | zero => exact h
  | succ n ih =>
    rw [Function.iterate_succ_apply, Function.iterate_succ_apply]
    exact ih h.closeSubgraph

theorem Preset.closeAll (h : Preset node first a b) : Preset node first a.closeAll b.closeAll := by
  unfold Builder.closeAll
  rw [h.bodies.length_eq]
  exact h.iterate _

end

/-! ## Edge statements -/

/-- What edges make of a builder `a`: the node has the defaults in the root if it came in there, and else what
it had; the groups and the open bodies are as they were to it. -/
structure Touched (node : String) (a b : Builder) : Prop where
  scopes : b.scopes = a.scopes
  below : b.graph.body.children = a.graph.body.children
  bodies : AllAlike node a.bodies b.bodies
  grows : node ∈ a.graph.nodes.names → node ∈ b.graph.nodes.names
  stayed : node ∈ a.graph.nodes.names ∨ node ∉ b.graph.nodes.names →
    b.graph.nodes.attrsOf node = a.graph.nodes.attrsOf node
  arrived : node ∉ a.graph.nodes.names → node ∈ b.graph.nodes.names →
    b.graph.nodes.attrsOf node = a.scopes.inherited .node

section
variable {node : String} {a b : Builder}

theorem Touched.addNode (hd : (a.scopes.inherited .node).names.Nodup) (h : Touched node a b) {other : String}
    (hnew : other ∉ b.graph.nodes.names) :
    Touched node a { b with graph := b.graph.addNode other (b.scopes.inherited .node) } := by
  have hm : node ∈ (b.graph.addNode other (b.scopes.inherited .node)).nodes.names ↔
      node ∈ b.graph.nodes.names ∨ node = other := NodeMap.mem_names_add
  refine ⟨h.scopes, h.below, h.bodies, fun ha => hm.2 (Or.inl (h.grows ha)), fun hs => ?_, fun ha hb => ?_⟩
  · have hne : node ≠ other := by
      rintro rfl
      rcases hs with hs | hs
      · exact hnew (h.grows hs)
      · exact hs (hm.2 (Or.inr rfl))
    refine (NodeMap.attrsOf_add_of_ne hne ..).trans (h.stayed ?_)
    exact hs.imp_right fun hn hb => hn (hm.2 (Or.inl hb))
  · show (b.graph.nodes.add other (b.scopes.inherited .node)).attrsOf node = a.scopes.inherited .node
    rw [h.scopes]
    by_cases hne : node = other
    · rw [hne, NodeMap.attrsOf_add_self hd, NodeMap.attrsOf_of_not_mem hnew, Attributes.empty_merge hd]
    · rw [NodeMap.attrsOf_add_of_ne hne]
      exact h.arrived ha ((hm.1 hb).resolve_right hne)

theorem Touched.touchNode (hd : (a.scopes.inherited .node).names.Nodup) (h : Touched node a b) (other : String) :
    Touched node a (b.touchNode other) := by
  have hroot : Touched node a
      { b with graph := { b.graph with body := ensureNode (b.scopes.inherited .node) other b.graph.body } } := by
    by_cases hm : other ∈ b.graph.nodes.names
    · rw [ensureNode_of_mem hm]
      exact h
    · rw [ensureNode_of_not_mem hm]
      exact h.addNode hd hm
  have hbodies : AllAlike node a.bodies (b.bodies.modifyHead (ensureNode ∅ other)) := by
    have hb := h.bodies
    revert hb
    generalize a.bodies = old
    generalize b.bodies = new
    intro hb
    cases hb with
    | nil => exact .nil
    | cons head tail => exact .cons (head.ensureNode other) tail
  rw [touchNode_eq]
  exact ⟨hroot.scopes, hroot.below, hbodies, hroot.grows, hroot.stayed, hroot.arrived⟩

theorem Touched.connect (hd : (a.scopes.inherited .node).names.Nodup) (h : Touched node a a) (chain : List Operand)
    (attrs : Attributes) : Touched node a (a.connect chain attrs) := by
  unfold Builder.connect
  refine List.foldlRecOn _ _ h fun next hn pair _ => ?_
  have ht := (hn.touchNode hd pair.1.node).touchNode hd pair.2.node
  obtain ⟨edges, he⟩ := addEdge_touched next _ pair.1 pair.2
  show Touched node a (next.addEdge _ pair.1 pair.2)
  rw [he]
  exact ⟨ht.scopes, ht.below, ht.bodies, ht.grows, ht.stayed, ht.arrived⟩

theorem mem_nodes_touchNode {builder : Builder} {name other : String} :
    name ∈ (builder.touchNode other).graph.nodes.names ↔ name ∈ builder.graph.nodes.names ∨ name = other := by
  rw [touchNode_eq]
  exact NodeMap.mem_names_ensure

theorem mem_nodes_connect {builder : Builder} {name : String} {chain : List Operand} {attrs : Attributes} :
    name ∈ (builder.connect chain attrs).graph.nodes.names ↔ name ∈ builder.graph.nodes.names ∨ Joins chain name := by
  refine connect_iff (Q := fun builder => name ∈ builder.graph.nodes.names) fun builder attrs source destination => ?_
  obtain ⟨edges, he⟩ := addEdge_touched builder attrs source destination
  rw [he, ← or_assoc, ← mem_nodes_touchNode, ← mem_nodes_touchNode]
  exact Iff.rfl

/-- An edge presets the defaults for a node that it brings into the root, and nothing for any other. -/
theorem Touched.preset (h : Touched node a b) (hv : ∀ value ∈ a.graph.body.values node, value.names.Nodup) :
    Preset node (if node ∉ a.graph.nodes.names ∧ node ∈ b.graph.nodes.names then a.scopes.inherited .node else ∅) a b := by
  rw [values_eq, valuesBelow_eq, List.forall_mem_cons] at hv
  have hroot : (a.graph.nodes.attrsOf node).names.Nodup := hv.1
  refine ⟨?_, hroot, by rw [h.below]; exact .refl hv.2, h.bodies⟩
  by_cases hn : node ∉ a.graph.nodes.names ∧ node ∈ b.graph.nodes.names
  · rw [if_pos hn, h.arrived hn.1 hn.2, NodeMap.attrsOf_of_not_mem hn.1, Attributes.merge_empty]
  · rw [if_neg hn, Attributes.empty_merge hroot]
    rw [not_and_or, not_not] at hn
    exact h.stayed hn

end

/-! ## All bodies end -/

theorem sound_iterate {builder : Builder} (hs : Sound builder) (n : Nat) :
    Sound ((fun builder => builder.closeSubgraph.2)^[n] builder) ∧
      ∀ name, ((fun builder => builder.closeSubgraph.2)^[n] builder).Holds name ↔ builder.Holds name := by
  induction n generalizing builder with
  | zero => exact ⟨hs, fun _ => Iff.rfl⟩
  | succ n ih =>
    have hclosed : Sound builder.closeSubgraph.2 := hs.step (P := fun _ => True) (.closing builder)
    rw [Function.iterate_succ_apply]
    refine ⟨(ih hclosed).1, fun name => ?_⟩
    rw [(ih hclosed).2, holds_closeSubgraph hs]

theorem bodies_iterate {builder : Builder} (n : Nat) :
    ((fun builder => builder.closeSubgraph.2)^[n] builder).bodies.length = builder.bodies.length - n := by
  induction n generalizing builder with
  | zero => rfl
  | succ n ih =>
    rw [Function.iterate_succ_apply, ih, length_closeSubgraph]
    omega

/-- The nodes that are held are those of the root when all bodies have ended. -/
theorem mem_nodes_closeAll {builder : Builder} (hs : Sound builder) {name : String} :
    name ∈ builder.closeAll.graph.nodes.names ↔ builder.Holds name := by
  have hbodies : builder.closeAll.bodies = [] := by
    rw [← List.length_eq_zero_iff]
    exact (bodies_iterate _).trans (Nat.sub_self _)
  rw [← (sound_iterate hs builder.bodies.length).2]
  show _ ↔ builder.closeAll.Holds name
  unfold Holds
  rw [hbodies]
  exact (or_iff_left List.not_mem_nil).symm

theorem Reached.sound {builder : Builder} (h : builder.Reached) : Sound builder := by
  obtain ⟨name, kind, h⟩ := h
  exact h.keep Sound.step (sound_new name kind)

theorem Reached.built {builder : Builder} (h : builder.Reached) : builder.Built fun _ => True := by
  obtain ⟨name, kind, h⟩ := h
  exact (built_start name kind).steps h

/-- When all bodies have ended after a chain of edges, the nodes that it brought into the root have the defaults
under what they would have without it, and all others have what they would have. -/
theorem attributes_after_connect {builder : Builder} (h : builder.Reached) (chain : List Operand) (attrs : Attributes)
    (node : String) :
    ((builder.connect chain attrs).closeAll.graph.nodes.get? node).map Node.attributes =
      if node ∉ builder.graph.nodes.names ∧ Joins chain node then
        some ((builder.scopes.inherited .node).merge (builder.closeAll.graph.nodes.attrsOf node))
      else (builder.closeAll.graph.nodes.get? node).map Node.attributes := by
  have hbuilt := h.built
  have hsound := h.sound
  have hdefaults := (hbuilt.scopes.inherited .node).nodup
  have hself : Touched node builder builder := by
    refine ⟨rfl, rfl, .refl ?_, id, fun _ => rfl, fun hn hm => absurd hm hn⟩
    intro value hv
    obtain ⟨body, hb, hv⟩ := List.mem_flatMap.1 hv
    exact (hbuilt.bodies body hb).nodup_values value hv
  have hpreset := ((hself.connect hdefaults chain attrs).preset hbuilt.graph.body.nodup_values).closeAll
  have hconnected : Sound (builder.connect chain attrs) := hsound.step (P := fun _ => True) (.chain builder chain trivial)
  have hafter : node ∈ (builder.connect chain attrs).closeAll.graph.nodes.names ↔
      builder.Holds node ∨ Joins chain node := by
    rw [mem_nodes_closeAll hconnected, holds_connect]
  have hbefore : node ∈ builder.closeAll.graph.nodes.names ↔ builder.Holds node := mem_nodes_closeAll hsound
  have hvalue := hpreset.value
  rw [NodeMap.map_attributes_get?, NodeMap.map_attributes_get?]
  by_cases hj : node ∉ builder.graph.nodes.names ∧ Joins chain node
  · rw [if_pos ⟨hj.1, mem_nodes_connect.2 (Or.inr hj.2)⟩] at hvalue
    rw [if_pos hj, if_pos (hafter.2 (Or.inr hj.2)), hvalue]
  · have hnot : ¬ (node ∉ builder.graph.nodes.names ∧ node ∈ (builder.connect chain attrs).graph.nodes.names) := by
      rintro ⟨hn, hm⟩
      exact hj ⟨hn, (mem_nodes_connect.1 hm).resolve_left hn⟩
    -- A node that is joined all the same is in the root already.
    have hsame : node ∈ (builder.connect chain attrs).closeAll.graph.nodes.names ↔
        node ∈ builder.closeAll.graph.nodes.names := by
      rw [hafter, hbefore, or_iff_left_iff_imp]
      intro hjoins
      by_contra hn
      exact hj ⟨fun hm => hn (Or.inl hm), hjoins⟩
    rw [if_neg hnot, Attributes.empty_merge hpreset.nodup] at hvalue
    rw [if_neg hj, hvalue]
    simp only [hsame]

/-- A body is open with a node of its own, and then there are defaults. -/
def openBuilder : Builder :=
  (((Builder.new "" ⟨false, false⟩).enterScope.openSubgraph "").declareNode "a" ∅).setDefaults .node
    ⟨[⟨"x", .string "1"⟩]⟩

def openChain : List Operand := [.node { node := "a" }, .node { node := "b" }]

theorem reached_openBuilder : openBuilder.Reached := by
  refine ⟨"", ⟨false, false⟩, ((Steps.single (.opening _ "")).tail (.node _ "a" ?_)).tail (.defaults _ .node ?_)⟩
  · exact Attributes.nodup_names_empty
  · exact List.nodup_singleton _

theorem attributes_of_openBuilder : openBuilder.Reached ∧
    ((openBuilder.connect openChain ∅).closeAll.graph.nodes.get? "a").map Node.attributes =
      if "a" ∉ openBuilder.graph.nodes.names ∧ Joins openChain "a" then
        some ((openBuilder.scopes.inherited .node).merge (openBuilder.closeAll.graph.nodes.attrsOf "a"))
      else (openBuilder.closeAll.graph.nodes.get? "a").map Node.attributes :=
  ⟨reached_openBuilder, attributes_after_connect reached_openBuilder openChain ∅ "a"⟩

/-- The edge gives the defaults to a node that was there: it is in the open body, but not in the root yet. -/
theorem defaults_of_open_node : openBuilder.Reached ∧ (∃ body ∈ openBuilder.bodies, "a" ∈ body.nodes.names) ∧
    ((openBuilder.connect openChain ∅).closeAll.graph.nodes.get? "a").map Node.attributes ≠
      (openBuilder.closeAll.graph.nodes.get? "a").map Node.attributes :=
  ⟨reached_openBuilder, by decide, by decide +kernel⟩

end DotLang.Builder
