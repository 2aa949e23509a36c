import DotLang.Proofs.Builder.Distinct
import DotLang.Proofs.Values

/-!
# What the groups of a builder gain of a node

A group that ends brings what the node has in it to the body around it, twice: merged into what the node has
there, and in the tree below. If its name is in use, other bodies may gain in place of that one, but of a
group in which the node has nothing they gain nothing.
-/

namespace DotLang.Builder
open Subgraph Attributes

/-- Between two bodies, what the node has of its own gains `own`, and what it has below gains `below`. -/
structure BodyGains (node : String) (own below : List Attributes) (a b : Subgraph) : Prop where
  own : b.nodes.attrsOf node = (a.nodes.attrsOf node).merge (mergeAll own)
  below : mergeAll (b.valuesBelow node) = (mergeAll (a.valuesBelow node)).merge (mergeAll below)

/-- Between two builders, the current body gains, and all else that is open keeps what it has. -/
inductive Gains (node : String) (own below : List Attributes) (a b : Builder) : Prop
  | root (ha : a.bodies = []) (hb : b.bodies = [])
    (h : b.graph.nodes.attrsOf node = (a.graph.nodes.attrsOf node).merge (mergeAll own))
  | body {x y : Subgraph} {xs ys : List Subgraph} (ha : a.bodies = x :: xs) (hb : b.bodies = y :: ys)
    (h : b.graph.nodes.attrsOf node = a.graph.nodes.attrsOf node) (head : BodyGains node own below x y)
    (outer : List.Forall₂ (BodyGains node [] []) xs ys)

section
variable {node : String} {own below own' below' : List Attributes}

theorem BodyGains.refl (a : Subgraph) : BodyGains node [] [] a a := ⟨rfl, rfl⟩

theorem BodyGains.trans {a b c : Subgraph} (h : BodyGains node own below a b)
    (h' : BodyGains node own' below' b c) : BodyGains node (own ++ own') (below ++ below') a c where
  own := by rw [h'.own, h.own, merge_assoc (nodup_names_mergeAll own), mergeAll_append]
  below := by rw [h'.below, h.below, merge_assoc (nodup_names_mergeAll below), mergeAll_append]

/-- All that matters is what the values come to. -/
theorem BodyGains.congr {a b : Subgraph} (h : BodyGains node own below a b) (ho : mergeAll own' = mergeAll own)
    (hb : mergeAll below' = mergeAll below) : BodyGains node own' below' a b :=
  ⟨by rw [ho, h.own], by rw [hb, h.below]⟩

theorem BodyGains.values {a b : Subgraph} (h : BodyGains node [] [] a b) :
    mergeAll (b.values node) = mergeAll (a.values node) := by
  have hown : b.nodes.attrsOf node = a.nodes.attrsOf node := h.own
  have hbelow : mergeAll (b.valuesBelow node) = mergeAll (a.valuesBelow node) := h.below
  rw [values_eq, values_eq, mergeAll_cons, mergeAll_cons (a.nodes.attrsOf node), hown, hbelow]

theorem BodyGains.values_of_new {name : String} {attrs : Attributes} {b : Subgraph}
    (h : BodyGains node own below (Subgraph.new name attrs) b) :
    mergeAll (b.values node) = mergeAll (own ++ below) := by
  have hown : b.nodes.attrsOf node = mergeAll own := by
    rw [h.own]
    exact empty_merge (nodup_names_mergeAll own)
  have hbelow : mergeAll (b.valuesBelow node) = mergeAll below := by
    rw [h.below, valuesBelow_eq]
    exact empty_merge (nodup_names_mergeAll below)
  rw [values_eq, mergeAll_cons, hown, hbelow, mergeAll_singleton (nodup_names_mergeAll own), mergeAll_append]

theorem forall₂_gains_trans {as bs cs : List Subgraph} (h : List.Forall₂ (BodyGains node [] []) as bs)
    (h' : List.Forall₂ (BodyGains node [] []) bs cs) : List.Forall₂ (BodyGains node [] []) as cs :=
  forall₂_trans BodyGains.trans h h'

theorem forall₂_gains_refl (as : List Subgraph) : List.Forall₂ (BodyGains node [] []) as as :=
  List.forall₂_same.2 fun body _ => .refl body

/-- Nothing is gained where the root and the open bodies gain nothing. -/
theorem Gains.of_none {a b : Builder} (h : b.graph.nodes.attrsOf node = a.graph.nodes.attrsOf node)
    (hb : List.Forall₂ (BodyGains node [] []) a.bodies b.bodies) : Gains node [] [] a b := by
  generalize hx : a.bodies = as at hb
  generalize hy : b.bodies = bs at hb
  cases hb with
  | nil => exact .root hx hy h
  | cons head outer => exact .body hx hy h head outer

theorem Gains.refl (a : Builder) : Gains node [] [] a a := .of_none rfl (forall₂_gains_refl _)

theorem Gains.trans {a b c : Builder} (h : Gains node own below a b) (h' : Gains node own' below' b c) :
    Gains node (own ++ own') (below ++ below') a c := by
  cases h with
  | root ha hb h =>
    cases h' with
    | root _ hc h' =>
      refine .root ha hc ?_
      rw [h', h, merge_assoc (nodup_names_mergeAll own), mergeAll_append]
    | body hb' => cases hb.symm.trans hb'
  | body ha hb h head outer =>
    cases h' with
    | root hb' => cases hb.symm.trans hb'
    | body hb' hc h' head' outer' =>
      obtain ⟨rfl, rfl⟩ := List.cons.inj (hb.symm.trans hb')
      exact .body ha hc (h'.trans h) (head.trans head') (forall₂_gains_trans outer outer')

theorem Gains.congr {a b : Builder} (h : Gains node own below a b) (ho : mergeAll own' = mergeAll own)
    (hb : mergeAll below' = mergeAll below) : Gains node own' below' a b := by
  cases h with
  | root ha hb' h => exact .root ha hb' (by rw [ho, h])
  | body ha hb' h head outer => exact .body ha hb' h (head.congr ho hb) outer

/-! ## Statements -/

theorem gains_modifyCurrent {builder : Builder} {f : Subgraph → Subgraph}
    (hf : ∀ sub, BodyGains node own below sub (f sub)) : Gains node own below builder (builder.modifyCurrent f) := by
  unfold modifyCurrent
  split
  · rename_i hb
    exact .root hb hb (hf _).own
  · rename_i body outer hb
    exact .body hb rfl rfl (hf body) (forall₂_gains_refl outer)

theorem gains_setAttributes {builder : Builder} (f : Subgraph → Attributes) :
    Gains node [] [] builder (builder.modifyCurrent fun body => { body with attributes := f body }) :=
  gains_modifyCurrent fun _ => ⟨rfl, rfl⟩

theorem gains_assign (builder : Builder) (attr : Attribute) : Gains node [] [] builder (builder.assign attr) :=
  gains_setAttributes fun body => body.attributes.insert attr

theorem gains_setDefaults (builder : Builder) (category : Category) (attrs : Attributes) :
    Gains node [] [] builder (builder.setDefaults category attrs) := by
  have hnoted : Gains node [] [] builder { builder with scopes := builder.scopes.merge category attrs } :=
    .of_none rfl (forall₂_gains_refl _)
  cases category with
  | graph => exact hnoted.trans (gains_setAttributes fun body => body.attributes.merge attrs)
  | node => exact hnoted
  | edge => exact hnoted

theorem gains_declareNode (builder : Builder) (name : String) (attrs : Attributes) :
    Gains node (if name = node then [(builder.scopes.inherited .node).merge attrs] else []) [] builder
      (builder.declareNode name attrs) := by
  have hnodup : ((builder.scopes.inherited .node).merge attrs).names.Nodup :=
    nodup_names_merge (builder.scopes.nodup_names_inherited .node) attrs
  refine gains_modifyCurrent fun sub => ⟨?_, rfl⟩
  show (sub.nodes.add name _).attrsOf node = _
  by_cases hn : name = node
  · rw [if_pos hn, hn, NodeMap.attrsOf_add_self hnodup, mergeAll_singleton hnodup]
  · rw [if_neg hn, NodeMap.attrsOf_add_of_ne (Ne.symm hn)]
    rfl

/-! ## Groups that end -/

section
variable {sub : Subgraph}

/-- A body that adopts a group gains all values of it, of its own and below. -/
theorem bodyGains_attach (hv : ∀ value ∈ sub.values node, value.names.Nodup) {body : Subgraph}
    (hn : sub.name ∉ body.groupNames) : BodyGains node (sub.values node) (sub.values node) body (body.attach sub) := by
  rw [attach_of_unused hn]
  constructor
  · exact attrsOf_addAll_allNodes hv body.nodes
  · have hbelow : (body.adopt sub).valuesBelow node = body.valuesBelow node ++ sub.values node := by
      rw [valuesBelow_eq, valuesBelow_eq]
      show (body.children ++ [sub]).flatMap _ = _
      rw [List.flatMap_append, List.flatMap_singleton]
    rw [hbelow, mergeAll_append]

theorem gains_attach_root {builder : Builder} (hb : builder.bodies = [])
    (hv : ∀ value ∈ sub.values node, value.names.Nodup) :
    Gains node (sub.values node) (sub.values node) builder { builder with graph := builder.graph.attach sub } := by
  refine .root hb hb ?_
  show (builder.graph.body.attach sub).nodes.attrsOf node = _
  rw [nodes_attach, attrsOf_addAll_allNodes hv]
  rfl

/-- The node has no attributes in the tree. -/
def Silent (node : String) (sub : Subgraph) : Prop := ∀ value ∈ sub.values node, value = ∅

theorem Silent.nodup (hs : Silent node sub) : ∀ value ∈ sub.values node, value.names.Nodup := by
  intro value hv
  rw [hs value hv]
  exact nodup_names_empty

theorem Silent.mergeAll (hs : Silent node sub) : Attributes.mergeAll (sub.values node) = ∅ := mergeAll_eq_empty.2 hs

theorem silent_new (name : String) (attrs : Attributes) : Silent node (Subgraph.new name attrs) := by
  intro value hv
  rw [values_eq, valuesBelow_eq] at hv
  exact List.mem_singleton.1 hv

theorem Silent.receive (hs : Silent node sub) (body : Subgraph) : BodyGains node [] [] body (Builder.receive sub body) := by
  refine ⟨?_, rfl⟩
  show (body.nodes.addAll sub.allNodes).attrsOf node = _
  rw [attrsOf_addAll_allNodes hs.nodup, hs.mergeAll]
  rfl

theorem Silent.absorb (hs : Silent node sub) {body : Subgraph} (hf : (body.groupNames ++ sub.groupNames).Nodup) :
    BodyGains node [] [] body (body.absorb sub) := by
  have hvalues := hs
  unfold Silent at hvalues
  rw [values_eq, List.forall_mem_cons] at hvalues
  obtain ⟨hown, hbelow⟩ := hvalues
  rw [absorb_of_fresh hf]
  constructor
  · show (body.nodes.addAll sub.nodes.toList).attrsOf node = _
    rw [NodeMap.attrsOf_addAll_toList (hown ▸ nodup_names_empty), hown]
    rfl
  · rw [valuesBelow_eq, valuesBelow_eq]
    show Attributes.mergeAll ((body.children ++ sub.children).flatMap _) = _
    rw [List.flatMap_append, mergeAll_append, ← valuesBelow_eq sub, mergeAll_eq_empty.2 hbelow]
    rfl

theorem Silent.modify? (hs : Silent node sub) {body result : Subgraph}
    (hf : (body.groupNames ++ sub.groupNames).Nodup)
    (hm : body.modify? sub.name (fun group => group.absorb sub) = some result) : BodyGains node [] [] body result := by
  obtain ⟨-, hl, group, -, -, hr⟩ := modify?_eq_some hm
  have hgroup : BodyGains node [] [] group (group.absorb sub) :=
    hs.absorb (hf.sublist (hr.groupNames_sublist.append_right _))
  have hnodes : result.nodes = body.nodes := congrArg (·.2.2) hl
  refine ⟨by rw [hnodes]; rfl, ?_⟩
  -- What stands in front of the group and behind it is the same, and the group comes to the same.
  obtain ⟨before, after, hold, hnew⟩ := hr
  have hvalues := hgroup.values
  unfold values at hvalues
  unfold valuesBelow
  rw [hold, hnew, List.map_append, List.map_append, List.map_append, List.map_append, mergeAll_append, mergeAll_append,
    mergeAll_append, mergeAll_append, hvalues]
  rfl

theorem Silent.absorbedBy (hs : Silent node sub) {body result : Subgraph}
    (hf : (body.groupNames ++ sub.groupNames).Nodup) (ha : AbsorbedBy sub body result) :
    BodyGains node [] [] body result := by
  cases ha with
  | itself _ hr => exact hr ▸ hs.absorb hf
  | deeper hm => exact hs.modify? hf hm

/-- Wherever it goes, nothing is gained of a group in which the node has nothing. -/
theorem Silent.attached (hs : Silent node sub) {builder result : Builder} (hd : Distinct (builder.push sub))
    (ha : Attached builder sub result) : Gains node [] [] builder result := by
  have hreceived : List.Forall₂ (BodyGains node [] []) builder.bodies (builder.bodies.map (Builder.receive sub)) := by
    rw [List.forall₂_map_right_iff]
    exact List.forall₂_same.2 fun body _ => hs.receive body
  cases ha with
  | root hb => exact (gains_attach_root hb hs.nodup).congr hs.mergeAll.symm hs.mergeAll.symm
  | @finished body ho hm =>
    have hnodes : body.nodes = builder.graph.nodes := congrArg (·.2.2) (modify?_eq_some hm).2.1
    exact .of_none (by rw [← hnodes]; rfl) hreceived
  | @reopened inner outer body body' hn hb hab =>
    have hf := hd.fresh_received (show body ∈ builder.bodies.map (Builder.receive sub) by rw [hb]; simp)
    refine .of_none rfl (forall₂_gains_trans hreceived ?_)
    rw [hb]
    exact List.rel_append (forall₂_gains_refl inner) (.cons (hs.absorbedBy hf hab) (forall₂_gains_refl outer))
  | @current body outer hb hk =>
    have hgains := bodyGains_attach hs.nodup (not_mem_current_of_unknown hb hk)
    exact .body hb rfl rfl (hgains.congr hs.mergeAll.symm hs.mergeAll.symm) (forall₂_gains_refl outer)

/-- A group with a name that is not in use goes to the current body, which gains all of its values; the root
takes in a group of any name. -/
theorem gains_attach {builder : Builder} (hv : ∀ value ∈ sub.values node, value.names.Nodup)
    (hk : builder.bodies = [] ∨ builder.isKnown sub.name = false) :
    Gains node (sub.values node) (sub.values node) builder (builder.attach sub) := by
  by_cases hb : builder.bodies = []
  · rw [attach_of_nil hb]
    exact gains_attach_root hb hv
  · have hk := hk.resolve_left hb
    obtain ⟨body, outer, hcons⟩ := List.exists_cons_of_ne_nil hb
    rw [attach_of_returned hb (mergeReopened_of_unknown hk)]
    unfold modifyCurrent
    rw [hcons]
    exact .body hcons rfl rfl (bodyGains_attach hv (not_mem_current_of_unknown hcons hk)) (forall₂_gains_refl outer)

end

end

end DotLang.Builder
