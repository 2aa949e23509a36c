import DotLang.Builder
import DotLang.Proofs.Everywhere

/-!
# What a builder can do

The calls that reading a document makes, as a relation between builders. All of them but the opening and
the closing of a body only add nodes to bodies that are there, or change attributes and edges: the builder
grows. A group whose body ends goes to one of four places, and `attach_cases` says to which.
-/

namespace DotLang.Subgraph

/-- The group with a node of a name among its own, which starts with the attributes given if it is new. -/
def ensureNode (attrs : Attributes) (name : String) (sub : Subgraph) : Subgraph :=
  { sub with nodes := sub.nodes.ensure attrs name }

theorem ensureNode_of_mem {sub : Subgraph} {name : String} (h : name ∈ sub.nodes.names) (attrs : Attributes) :
    sub.ensureNode attrs name = sub := by
  obtain ⟨own, attributes, nodes, children⟩ := sub
  unfold ensureNode
  rw [NodeMap.ensure_of_mem h]

theorem ensureNode_of_not_mem {sub : Subgraph} {name : String} (h : name ∉ sub.nodes.names) (attrs : Attributes) :
    sub.ensureNode attrs name = sub.addNode name attrs := by
  unfold ensureNode
  rw [NodeMap.ensure_of_not_mem h]
  rfl

end DotLang.Subgraph

namespace DotLang.Builder
open Subgraph

/-- The builder with one more open body, innermost. -/
def push (builder : Builder) (sub : Subgraph) : Builder :=
  { builder with bodies := sub :: builder.bodies }

/-- Gives the current body an attribute. -/
def assign (builder : Builder) (attr : Attribute) : Builder :=
  builder.modifyCurrent fun body => { body with attributes := body.attributes.insert attr }

theorem setAttribute_eq (builder : Builder) (name : String) (value : AttrValue) :
    builder.setAttribute name value = (Attribute.make name value).map builder.assign := by
  unfold setAttribute Attributes.set
  cases Attribute.make name value with
  | error error => rfl
  | ok attr =>
    show Except.ok _ = Except.ok _
    unfold assign modifyCurrent current
    cases builder.bodies <;> rfl

theorem setAttribute_eq_ok {builder result : Builder} {name : String} {value : AttrValue} :
    builder.setAttribute name value = .ok result ↔
      name ≠ "" ∧ (isQuotable name = true ∧ value.isWritable = true) ∧ builder.assign ⟨name, value⟩ = result := by
  rw [setAttribute_eq]
  cases h : Attribute.make name value with
  | error error =>
    refine ⟨nofun, fun ⟨hn, hw, _⟩ => ?_⟩
    rw [Attributes.make_eq_ok.2 ⟨hn, hw.1, hw.2, rfl⟩] at h
    cases h
  | ok attr =>
    obtain ⟨hn, hq, hw, rfl⟩ := Attributes.make_eq_ok.1 h
    simp [Except.map, hn, hq, hw]

/-- One call to a builder, with attributes as `P` says. -/
inductive Step (P : Attributes → Prop) : Builder → Builder → Prop
  | assignment (builder : Builder) {attr : Attribute} (h : P ⟨[attr]⟩) : Step P builder (builder.assign attr)
  | defaults (builder : Builder) (category : Category) {attrs : Attributes} (h : P attrs) :
    Step P builder (builder.setDefaults category attrs)
  | node (builder : Builder) (name : String) {attrs : Attributes} (h : P attrs) :
    Step P builder (builder.declareNode name attrs)
  | chain (builder : Builder) (chain : List Operand) {attrs : Attributes} (h : P attrs) :
    Step P builder (builder.connect chain attrs)
  | opening (builder : Builder) (name : String) : Step P builder (builder.openSubgraph name)
  | closing (builder : Builder) : Step P builder builder.closeSubgraph.2
  | reference (builder : Builder) (name : String) : Step P builder (builder.referToSubgraph name).2

/-- The builders that calls lead to. -/
inductive Steps (P : Attributes → Prop) (builder : Builder) : Builder → Prop
  | refl : Steps P builder builder
  | tail {next last : Builder} (h : Steps P builder next) (hs : Step P next last) : Steps P builder last

theorem Steps.single {P : Attributes → Prop} {a b : Builder} (h : Step P a b) : Steps P a b :=
  .tail .refl h

theorem Steps.trans {P : Attributes → Prop} {a b c : Builder} (h : Steps P a b) (h' : Steps P b c) :
    Steps P a c := by
  induction h' with
  | refl => exact h
  | tail _ hs ih => exact .tail ih hs

/-- What every call keeps, all of them keep. -/
theorem Steps.keep {P : Attributes → Prop} {Q : Builder → Prop} (hq : ∀ {a b}, Step P a b → Q a → Q b)
    {a b : Builder} (h : Steps P a b) (ha : Q a) : Q b := by
  induction h with
  | refl => exact ha
  | tail _ hs ih => exact hq hs ih

theorem Step.mono {P Q : Attributes → Prop} (hpq : ∀ attrs, P attrs → Q attrs) {a b : Builder} (h : Step P a b) :
    Step Q a b := by
  cases h with
  | assignment h => exact .assignment a (hpq _ h)
  | defaults category h => exact .defaults a category (hpq _ h)
  | node name h => exact .node a name (hpq _ h)
  | chain chain h => exact .chain a chain (hpq _ h)
  | opening name => exact .opening a name
  | closing => exact .closing a
  | reference name => exact .reference a name

theorem Steps.mono {P Q : Attributes → Prop} (hpq : ∀ attrs, P attrs → Q attrs) {a b : Builder} (h : Steps P a b) :
    Steps Q a b := by
  induction h with
  | refl => exact .refl
  | tail _ hs ih => exact ih.tail (hs.mono hpq)

/-! ## Growing -/

/-- A body that differs from an earlier one in its attributes and in further nodes of its own. -/
structure BodyGrows (a b : Subgraph) : Prop where
  name : b.name = a.name
  children : b.children = a.children
  nodes : ∀ name ∈ a.nodes.names, name ∈ b.nodes.names

theorem BodyGrows.refl (a : Subgraph) : BodyGrows a a := ⟨rfl, rfl, fun _ h => h⟩

theorem BodyGrows.trans {a b c : Subgraph} (h : BodyGrows a b) (h' : BodyGrows b c) : BodyGrows a c :=
  ⟨h'.name.trans h.name, h'.children.trans h.children, fun n hn => h'.nodes n (h.nodes n hn)⟩

theorem BodyGrows.labelsBelow {a b : Subgraph} (h : BodyGrows a b) : b.labelsBelow = a.labelsBelow := by
  rw [labelsBelow_eq, labelsBelow_eq, h.children]

theorem BodyGrows.groupNames {a b : Subgraph} (h : BodyGrows a b) : b.groupNames = a.groupNames :=
  congrArg properNames h.labelsBelow

theorem bodyGrows_addNode (sub : Subgraph) (name : String) (attrs : Attributes) :
    BodyGrows sub (sub.addNode name attrs) :=
  ⟨rfl, rfl, fun _ h => NodeMap.mem_names_add.2 (Or.inl h)⟩

theorem bodyGrows_attributes (sub : Subgraph) (attrs : Attributes) :
    BodyGrows sub { sub with attributes := attrs } :=
  ⟨rfl, rfl, fun _ h => h⟩

/-- A builder in which the root and the open bodies grew. Its edges are not looked at. -/
structure Grows (a b : Builder) : Prop where
  kind : b.graph.kind = a.graph.kind
  root : BodyGrows a.graph.body b.graph.body
  bodies : List.Forall₂ BodyGrows a.bodies b.bodies

theorem Grows.refl (a : Builder) : Grows a a :=
  ⟨rfl, .refl _, List.forall₂_same.2 fun _ _ => .refl _⟩

theorem forall₂_trans {R : Subgraph → Subgraph → Prop} (hR : ∀ {a b c}, R a b → R b c → R a c)
    {a b c : List Subgraph} (h : List.Forall₂ R a b) : List.Forall₂ R b c → List.Forall₂ R a c := by
  induction h generalizing c with
  | nil => exact id
  | cons hb _ ih =>
    intro h'
    cases h' with
    | cons hb' h' => exact .cons (hR hb hb') (ih h')

theorem exists_mem_of_forall₂ {R : Subgraph → Subgraph → Prop} {a b : List Subgraph} (h : List.Forall₂ R a b)
    {body : Subgraph} (hb : body ∈ b) : ∃ old ∈ a, R old body := by
  induction h with
  | nil => cases hb
  | cons hxy _ ih =>
    rcases List.mem_cons.1 hb with rfl | hb
    · exact ⟨_, List.mem_cons_self .., hxy⟩
    · obtain ⟨old, hold, hbody⟩ := ih hb
      exact ⟨old, List.mem_cons_of_mem _ hold, hbody⟩

theorem Grows.trans {a b c : Builder} (h : Grows a b) (h' : Grows b c) : Grows a c :=
  ⟨h'.kind.trans h.kind, h.root.trans h'.root, forall₂_trans .trans h.bodies h'.bodies⟩

theorem grows_modifyCurrent (builder : Builder) {f : Subgraph → Subgraph} (hf : ∀ sub, BodyGrows sub (f sub)) :
    Grows builder (builder.modifyCurrent f) := by
  unfold modifyCurrent
  split
  · exact ⟨rfl, hf _, List.forall₂_same.2 fun _ _ => .refl _⟩
  · rename_i body outer hb
    refine ⟨rfl, .refl _, ?_⟩
    rw [hb]
    exact .cons (hf body) (List.forall₂_same.2 fun _ _ => .refl _)

theorem grows_declareNode (builder : Builder) (name : String) (attrs : Attributes) :
    Grows builder (builder.declareNode name attrs) :=
  grows_modifyCurrent builder fun sub => bodyGrows_addNode sub ..

theorem grows_assign (builder : Builder) (attr : Attribute) : Grows builder (builder.assign attr) :=
  grows_modifyCurrent builder fun sub => bodyGrows_attributes sub _

theorem grows_setDefaults (builder : Builder) (category : Category) (attrs : Attributes) :
    Grows builder (builder.setDefaults category attrs) := by
  let noted : Builder := { builder with scopes := builder.scopes.merge category attrs }
  have hs : Grows builder noted := ⟨rfl, .refl _, List.forall₂_same.2 fun _ _ => .refl _⟩
  cases category with
  | graph => exact hs.trans (grows_modifyCurrent noted fun sub => bodyGrows_attributes sub (sub.attributes.merge attrs))
  | node => exact hs
  | edge => exact hs

theorem bodyGrows_ensureNode (attrs : Attributes) (name : String) (sub : Subgraph) :
    BodyGrows sub (ensureNode attrs name sub) :=
  ⟨rfl, rfl, fun _ h => NodeMap.mem_names_ensure.2 (Or.inl h)⟩

/-- A node that is touched comes into the root and into the innermost body, if it is not there. -/
theorem touchNode_eq (builder : Builder) (name : String) :
    builder.touchNode name =
      { builder with
        graph := { builder.graph with body := ensureNode (builder.scopes.inherited .node) name builder.graph.body }
        bodies := builder.bodies.modifyHead (ensureNode ∅ name) } := by
  have hrooted : (if builder.graph.nodes.contains name then builder
      else { builder with graph := builder.graph.addNode name (builder.scopes.inherited .node) }) =
      { builder with
        graph :=
          { builder.graph with body := ensureNode (builder.scopes.inherited .node) name builder.graph.body } } := by
    by_cases h : name ∈ builder.graph.nodes.names
    · rw [if_pos (NodeMap.contains_iff.2 h), ensureNode_of_mem h]
    · rw [if_neg fun hc => h (NodeMap.contains_iff.1 hc), ensureNode_of_not_mem h]
      rfl
  unfold touchNode
  rw [hrooted]
  cases builder.bodies with
  | nil => rfl
  | cons body outer =>
    rw [List.modifyHead_cons]
    by_cases h : name ∈ body.nodes.names
    · simp only [if_pos (NodeMap.contains_iff.2 h), ensureNode_of_mem h]
    · simp only [if_neg fun hc => h (NodeMap.contains_iff.1 hc), ensureNode_of_not_mem h]

theorem grows_touchNode (builder : Builder) (name : String) : Grows builder (builder.touchNode name) := by
  rw [touchNode_eq]
  refine ⟨rfl, bodyGrows_ensureNode .., ?_⟩
  show List.Forall₂ BodyGrows builder.bodies (builder.bodies.modifyHead (ensureNode ∅ name))
  cases builder.bodies with
  | nil => exact .nil
  | cons body outer => exact .cons (bodyGrows_ensureNode ..) (List.forall₂_same.2 fun _ _ => .refl _)

theorem contains_touchNode (builder : Builder) (name : String) :
    name ∈ (builder.touchNode name).graph.nodes.names := by
  rw [touchNode_eq]
  exact NodeMap.mem_names_ensure.2 (Or.inr rfl)

/-- An edge between nodes of the root leaves the root as it is. -/
theorem addEdge_eq {graph : Graph} {edge : Edge} (hs : edge.source.node ∈ graph.nodes.names)
    (hd : edge.destination.node ∈ graph.nodes.names) :
    graph.addEdge edge =
      { graph with
        edges :=
          if graph.kind.strict then Graph.insertStrict graph.kind.directed edge graph.edges
          else graph.edges ++ [edge] } := by
  unfold Graph.addEdge Graph.ensureNode
  rw [if_pos (NodeMap.contains_iff.2 hs)]
  simp only [if_pos (NodeMap.contains_iff.2 hd)]
  split <;> rfl

theorem mem_names_touched (builder : Builder) (a b : String) :
    a ∈ ((builder.touchNode a).touchNode b).graph.nodes.names ∧
      b ∈ ((builder.touchNode a).touchNode b).graph.nodes.names :=
  ⟨(grows_touchNode _ b).root.nodes a (contains_touchNode builder a), contains_touchNode _ b⟩

theorem addEdge_touched (builder : Builder) (attrs : Attributes) (source destination : Endpoint) :
    ∃ edges, builder.addEdge attrs source destination =
      { (builder.touchNode source.node).touchNode destination.node with
        graph := { ((builder.touchNode source.node).touchNode destination.node).graph with edges } } := by
  obtain ⟨hs, hd⟩ := mem_names_touched builder source.node destination.node
  unfold addEdge
  generalize (builder.touchNode source.node).touchNode destination.node = touched at hs hd ⊢
  have h := @addEdge_eq touched.graph ⟨source, destination, attrs⟩ hs hd
  exact ⟨_, congrArg (fun graph => { touched with graph }) h⟩

theorem grows_addEdge (builder : Builder) (attrs : Attributes) (source destination : Endpoint) :
    Grows builder (builder.addEdge attrs source destination) := by
  have ht := (grows_touchNode builder source.node).trans (grows_touchNode _ destination.node)
  obtain ⟨edges, he⟩ := addEdge_touched builder attrs source destination
  rw [he]
  exact ht.trans ⟨rfl, .refl _, List.forall₂_same.2 fun _ _ => .refl _⟩

theorem grows_connect (builder : Builder) (chain : List Operand) (attrs : Attributes) :
    Grows builder (builder.connect chain attrs) := by
  unfold connect
  refine List.foldlRecOn _ _ (.refl _) fun next hn pair _ => ?_
  exact hn.trans (grows_addEdge ..)

/-! ## Attaching -/

/-- A body that takes in the nodes of a group. -/
def receive (sub body : Subgraph) : Subgraph := { body with nodes := body.nodes.addAll sub.allNodes }

theorem bodyGrows_receive (sub body : Subgraph) : BodyGrows body (receive sub body) :=
  ⟨rfl, rfl, fun _ h => NodeMap.mem_names_addAll.2 (Or.inl h)⟩

theorem grows_receive (sub : Subgraph) (bodies : List Subgraph) :
    List.Forall₂ BodyGrows bodies (bodies.map (receive sub)) := by
  rw [List.forall₂_map_right_iff]
  exact List.forall₂_same.2 fun body _ => bodyGrows_receive sub body

/-- What a body becomes when it, or a group below it, absorbs a group of its name. -/
inductive AbsorbedBy (sub body result : Subgraph) : Prop
  | itself (h : body.name = sub.name) (hr : result = body.absorb sub)
  | deeper (h : body.modify? sub.name (fun group => group.absorb sub) = some result)

theorem absorbOpen?_eq_some {sub : Subgraph} : ∀ {bodies result : List Subgraph},
    absorbOpen? sub bodies = some result → ∃ inner body body' outer,
      bodies = inner ++ body :: outer ∧ result = inner ++ body' :: outer ∧ AbsorbedBy sub body body'
  | [], _, h => by rw [absorbOpen?] at h; cases h
  | body :: outer, result, h => by
    rw [absorbOpen?] at h
    split at h
    · rename_i hn
      obtain rfl := Option.some.inj h
      exact ⟨[], body, _, outer, rfl, rfl, .itself hn rfl⟩
    · split at h
      · rename_i body' hm
        obtain rfl := Option.some.inj h
        exact ⟨[], body, _, outer, rfl, rfl, .deeper hm⟩
      · obtain ⟨outer', ho, rfl⟩ := Option.map_eq_some_iff.1 h
        obtain ⟨inner, found, found', rest, rfl, rfl, ha⟩ := absorbOpen?_eq_some ho
        exact ⟨body :: inner, found, found', rest, rfl, rfl, ha⟩

theorem absorbOpen?_eq_none {sub : Subgraph} : ∀ {bodies : List Subgraph}, absorbOpen? sub bodies = none →
    ∀ body ∈ bodies, body.name ≠ sub.name ∧ sub.name ∉ body.groupNames
  | [], _ => by simp
  | body :: outer, h => by
    rw [absorbOpen?] at h
    split at h
    · cases h
    · rename_i hn
      split at h
      · cases h
      · rename_i hm
        rw [List.forall_mem_cons]
        exact ⟨⟨hn, modify?_eq_none.1 hm⟩, absorbOpen?_eq_none (Option.map_eq_none_iff.1 h)⟩

theorem isKnown_iff {builder : Builder} {name : String} :
    builder.isKnown name = true ↔ name ≠ "" ∧ (name ∈ builder.graph.body.groupNames ∨
      ∃ body ∈ builder.bodies, body.name = name ∨ name ∈ body.groupNames) := by
  unfold isKnown usesName
  simp only [Bool.or_eq_true, List.any_eq_true, find?_isSome, Bool.and_eq_true, Bool.not_eq_true', beq_iff_eq,
    String.isEmpty_eq_false_iff]
  constructor
  · rintro (h | ⟨body, hb, ⟨hn, h⟩ | h⟩)
    · exact ⟨(mem_groupNames.1 h).1, Or.inl h⟩
    · exact ⟨hn, Or.inr ⟨body, hb, Or.inl h⟩⟩
    · exact ⟨(mem_groupNames.1 h).1, Or.inr ⟨body, hb, Or.inr h⟩⟩
  · rintro ⟨hn, h | ⟨body, hb, h | h⟩⟩
    · exact Or.inl h
    · exact Or.inr ⟨body, hb, Or.inl ⟨hn, h⟩⟩
    · exact Or.inr ⟨body, hb, Or.inr h⟩

/-- Where a group goes whose body ended. -/
inductive Attached (builder : Builder) (sub : Subgraph) : Builder → Prop
  /-- No body is open: to the root. -/
  | root (h : builder.bodies = []) : Attached builder sub { builder with graph := builder.graph.attach sub }
  /-- Its name is in the finished part: there, and its nodes to all open bodies. -/
  | finished {body : Subgraph} (ho : builder.bodies ≠ [])
    (h : builder.graph.body.modify? sub.name (fun group => group.absorb sub) = some body) :
    Attached builder sub
      { builder with graph := { builder.graph with body }, bodies := builder.bodies.map (receive sub) }
  /-- Its name is used by an open body or below it: there, and its nodes to all open bodies. -/
  | reopened {inner outer : List Subgraph} {body body' : Subgraph} (hn : sub.name ≠ "")
    (hb : builder.bodies.map (receive sub) = inner ++ body :: outer) (h : AbsorbedBy sub body body') :
    Attached builder sub { builder with bodies := inner ++ body' :: outer }
  /-- Its name is new: to the body around it. -/
  | current {body : Subgraph} {outer : List Subgraph} (hb : builder.bodies = body :: outer)
    (h : builder.isKnown sub.name = false) :
    Attached builder sub { builder with bodies := body.attach sub :: outer }

section
variable {builder : Builder} {sub : Subgraph}

theorem mergeReopened_of_unknown (hk : builder.isKnown sub.name = false) :
    builder.mergeReopened sub = (builder, some sub) := by
  simp [mergeReopened, hk]

theorem mergeReopened_of_finished {body : Subgraph} (hk : builder.isKnown sub.name = true)
    (hm : builder.graph.body.modify? sub.name (fun group => group.absorb sub) = some body) :
    builder.mergeReopened sub =
      ({ builder with graph := { builder.graph with body }, bodies := builder.bodies.map (receive sub) }, none) := by
  simp only [mergeReopened, hk, Graph.modifySubgraph?, hm, if_true, Option.map_some]
  rfl

theorem mergeReopened_of_open {bodies : List Subgraph} (hk : builder.isKnown sub.name = true)
    (hm : builder.graph.body.modify? sub.name (fun group => group.absorb sub) = none)
    (ho : absorbOpen? sub (builder.bodies.map (receive sub)) = some bodies) :
    builder.mergeReopened sub = ({ builder with bodies }, none) := by
  unfold receive at ho
  simp only [mergeReopened, hk, Graph.modifySubgraph?, hm, if_true, Option.map_none, ho]

theorem attach_of_nil (hb : builder.bodies = []) :
    builder.attach sub = { builder with graph := builder.graph.attach sub } := by
  simp [attach, hb]

theorem attach_of_merged {next : Builder} (hb : builder.bodies ≠ [])
    (hm : builder.mergeReopened sub = (next, none)) : builder.attach sub = next := by
  unfold attach
  split
  · contradiction
  · simp only [hm]

theorem attach_of_returned {next : Builder} {rest : Subgraph} (hb : builder.bodies ≠ [])
    (hm : builder.mergeReopened sub = (next, some rest)) :
    builder.attach sub = next.modifyCurrent fun body => body.attach rest := by
  unfold attach
  split
  · contradiction
  · simp only [hm]

end

/-- A known name that is not in the finished part is met on the way through the open bodies. -/
theorem absorbOpen?_ne_none {builder : Builder} {sub : Subgraph} (hk : builder.isKnown sub.name = true)
    (hm : builder.graph.body.modify? sub.name (fun group => group.absorb sub) = none) :
    absorbOpen? sub (builder.bodies.map (receive sub)) ≠ none := by
  intro ho
  rcases (isKnown_iff.1 hk).2 with h | ⟨used, hu, h⟩
  · exact modify?_eq_none.1 hm h
  · have hnot := absorbOpen?_eq_none ho (receive sub used) (List.mem_map_of_mem hu)
    rcases h with h | h
    · exact hnot.1 h
    · exact hnot.2 h

theorem attach_cases (builder : Builder) (sub : Subgraph) : Attached builder sub (builder.attach sub) := by
  by_cases hb : builder.bodies = []
  · rw [attach_of_nil hb]
    exact .root hb
  cases hk : builder.isKnown sub.name with
  | false =>
    obtain ⟨body, outer, hcons⟩ := List.exists_cons_of_ne_nil hb
    have hcurrent : (builder.modifyCurrent fun body => body.attach sub) =
        { builder with bodies := body.attach sub :: outer } := by
      simp only [modifyCurrent, hcons]
    rw [attach_of_returned hb (mergeReopened_of_unknown hk), hcurrent]
    exact .current hcons hk
  | true =>
    cases hm : builder.graph.body.modify? sub.name (fun group => group.absorb sub) with
    | some found =>
      rw [attach_of_merged hb (mergeReopened_of_finished hk hm)]
      exact .finished hb hm
    | none =>
      cases ho : absorbOpen? sub (builder.bodies.map (receive sub)) with
      | some bodies =>
        obtain ⟨inner, found, found', rest, he, rfl, hf⟩ := absorbOpen?_eq_some ho
        rw [attach_of_merged hb (mergeReopened_of_open hk hm ho)]
        exact .reopened (isKnown_iff.1 hk).1 he hf
      | none => exact absurd ho (absorbOpen?_ne_none hk hm)

/-! ## What every call keeps -/

theorem attached_kind {builder result : Builder} {sub : Subgraph} (h : Attached builder sub result) :
    result.graph.kind = builder.graph.kind := by
  cases h <;> rfl

/-- A reference is a builder as it was, or one to which an empty group is attached. -/
theorem referToSubgraph_cases (builder : Builder) (name : String) :
    (builder.referToSubgraph name).2 = builder ∨
      ∃ attrs, (builder.referToSubgraph name).2 = builder.attach (.new name attrs) := by
  unfold referToSubgraph
  split
  · exact Or.inl rfl
  · exact Or.inr ⟨_, rfl⟩

/-- Closing is attaching the innermost body, once its scope is left. -/
theorem closeSubgraph_of_cons {builder : Builder} {sub : Subgraph} {outer : List Subgraph}
    (hb : builder.bodies = sub :: outer) :
    builder.closeSubgraph.2 = { builder.leaveScope with bodies := outer }.attach sub := by
  unfold closeSubgraph
  simp only [show builder.leaveScope.bodies = sub :: outer from hb]

theorem closeSubgraph_cases (builder : Builder) :
    builder.bodies = [] ∧ builder.closeSubgraph.2 = builder.leaveScope ∨
      ∃ sub outer, builder.bodies = sub :: outer ∧
        builder.closeSubgraph.2 = { builder.leaveScope with bodies := outer }.attach sub := by
  cases hb : builder.bodies with
  | nil =>
    refine Or.inl ⟨rfl, ?_⟩
    unfold closeSubgraph
    simp only [show builder.leaveScope.bodies = [] from hb]
  | cons sub outer => exact Or.inr ⟨sub, outer, rfl, closeSubgraph_of_cons hb⟩

theorem Step.kind {P : Attributes → Prop} {a b : Builder} (h : Step P a b) :
    b.graph.kind = a.graph.kind := by
  cases h with
  | assignment _ => exact (grows_assign ..).kind
  | defaults category _ => exact (grows_setDefaults ..).kind
  | node name _ => exact (grows_declareNode ..).kind
  | chain chain _ => exact (grows_connect ..).kind
  | opening name => rfl
  | closing =>
    rcases closeSubgraph_cases a with ⟨_, h⟩ | ⟨sub, outer, _, h⟩
    · rw [h]; rfl
    · rw [h, attached_kind (attach_cases ..)]; rfl
  | reference name =>
    rcases referToSubgraph_cases a name with h | ⟨attrs, h⟩
    · rw [h]
    · rw [h, attached_kind (attach_cases ..)]

theorem Steps.kind {P : Attributes → Prop} {a b : Builder} (h : Steps P a b) : b.graph.kind = a.graph.kind :=
  Steps.keep (fun hs ha => hs.kind.trans ha) h rfl

/-! ## The defaults -/

theorem scopes_modifyCurrent (builder : Builder) (f : Subgraph → Subgraph) :
    (builder.modifyCurrent f).scopes = builder.scopes := by
  unfold modifyCurrent
  split <;> rfl

theorem scopes_touchNode (builder : Builder) (name : String) : (builder.touchNode name).scopes = builder.scopes := by
  rw [touchNode_eq]

theorem scopes_addEdge (builder : Builder) (attrs : Attributes) (source destination : Endpoint) :
    (builder.addEdge attrs source destination).scopes = builder.scopes := by
  obtain ⟨edges, he⟩ := addEdge_touched builder attrs source destination
  rw [he]
  show ((builder.touchNode source.node).touchNode destination.node).scopes = builder.scopes
  rw [scopes_touchNode, scopes_touchNode]

theorem scopes_connect (builder : Builder) (chain : List Operand) (attrs : Attributes) :
    (builder.connect chain attrs).scopes = builder.scopes := by
  unfold connect
  refine List.foldlRecOn (motive := fun next : Builder => next.scopes = builder.scopes) _ _ rfl fun next hn pair _ => ?_
  exact (scopes_addEdge ..).trans hn

theorem scopes_attached {builder result : Builder} {sub : Subgraph} (h : Attached builder sub result) :
    result.scopes = builder.scopes := by
  cases h <;> rfl

theorem scopes_closeSubgraph (builder : Builder) : builder.closeSubgraph.2.scopes = builder.scopes.pop := by
  rcases closeSubgraph_cases builder with ⟨-, h⟩ | ⟨sub, outer, -, h⟩
  · rw [h]
    rfl
  · rw [h, scopes_attached (attach_cases ..)]
    rfl

theorem scopes_referToSubgraph (builder : Builder) (name : String) :
    (builder.referToSubgraph name).2.scopes = builder.scopes := by
  rcases referToSubgraph_cases builder name with h | ⟨attrs, h⟩
  · rw [h]
  · rw [h, scopes_attached (attach_cases ..)]

theorem scopes_setDefaults (builder : Builder) (category : Category) (attrs : Attributes) :
    (builder.setDefaults category attrs).scopes = builder.scopes.merge category attrs := by
  cases category with
  | graph => exact scopes_modifyCurrent ..
  | node => rfl
  | edge => rfl

/-! ## The names of the open bodies -/

theorem BodyGrows.names {as bs : List Subgraph} (h : List.Forall₂ BodyGrows as bs) :
    bs.map Subgraph.name = as.map Subgraph.name := by
  induction h with
  | nil => rfl
  | cons hb _ ih => rw [List.map_cons, List.map_cons, hb.name, ih]

theorem names_of_grows {a b : Builder} (h : Grows a b) : b.bodies.map Subgraph.name = a.bodies.map Subgraph.name :=
  BodyGrows.names h.bodies

theorem AbsorbedBy.name {sub body result : Subgraph} (h : AbsorbedBy sub body result) : result.name = body.name := by
  cases h with
  | itself _ hr => rw [hr, name_absorb]
  | deeper hm => exact congrArg Prod.fst (modify?_eq_some hm).2.1

theorem names_of_attached {builder result : Builder} {sub : Subgraph} (h : Attached builder sub result) :
    result.bodies.map Subgraph.name = builder.bodies.map Subgraph.name := by
  have hreceive := BodyGrows.names (grows_receive sub builder.bodies)
  cases h with
  | root h => rfl
  | finished ho h => exact hreceive
  | reopened hn hb h =>
    rw [← hreceive, hb]
    simp only [List.map_append, List.map_cons, h.name]
  | current hb h =>
    rw [hb]
    simp only [List.map_cons, show (Subgraph.attach _ sub).name = _ from congrArg Prod.fst (label_attach _ sub)]

theorem names_referToSubgraph (builder : Builder) (name : String) :
    (builder.referToSubgraph name).2.bodies.map Subgraph.name = builder.bodies.map Subgraph.name := by
  rcases referToSubgraph_cases builder name with h | ⟨attrs, h⟩
  · rw [h]
  · rw [h, names_of_attached (attach_cases ..)]

theorem names_closeSubgraph (builder : Builder) :
    builder.closeSubgraph.2.bodies.map Subgraph.name = (builder.bodies.map Subgraph.name).tail := by
  rcases closeSubgraph_cases builder with ⟨hb, h⟩ | ⟨sub, outer, hb, h⟩
  · rw [h]
    show builder.bodies.map Subgraph.name = _
    rw [hb]
    rfl
  · rw [h, names_of_attached (attach_cases ..), hb]
    rfl

theorem length_closeSubgraph (builder : Builder) :
    builder.closeSubgraph.2.bodies.length = builder.bodies.length - 1 := by
  simpa using congrArg List.length (names_closeSubgraph builder)

end DotLang.Builder
