import DotLang.Proofs.Builder.Steps

/-!
# Group names stay distinct while bodies are open

The names of groups are spread over the finished tree and the trees below the open bodies; the open bodies
themselves may repeat a name. What survives every call is that the spread names are distinct, and that no
name below an open body is that of the body or of one around it: a group with such a name would have been
absorbed when its body ended.
-/

namespace DotLang.Builder
open Subgraph

/-- The name of a body and the names of the groups below it. -/
def outline (sub : Subgraph) : String × List String := (sub.name, sub.groupNames)

/-- No name below a body is its own or that of a body around it; innermost bodies come first. -/
def Unshadowed : List (String × List String) → Prop
  | [] => True
  | body :: outer => (∀ name ∈ body.2, name ∉ (body :: outer).map Prod.fst) ∧ Unshadowed outer

theorem Unshadowed.outer {outer : List (String × List String)} :
    ∀ {inner : List (String × List String)}, Unshadowed (inner ++ outer) → Unshadowed outer
  | [], h => h
  | _ :: _, h => Unshadowed.outer h.2

/-- One body may get other groups, if their names are not those of the body or of one around it. -/
theorem Unshadowed.replace {name : String} {old new : List String} {outer : List (String × List String)}
    (hn : ∀ group ∈ new, group ∉ name :: outer.map Prod.fst) :
    ∀ {inner : List (String × List String)}, Unshadowed (inner ++ (name, old) :: outer) →
      Unshadowed (inner ++ (name, new) :: outer)
  | [], h => ⟨hn, h.2⟩
  | body :: inner, h => by
    refine ⟨fun group hg => ?_, Unshadowed.replace hn h.2⟩
    have := h.1 group hg
    simpa using this

structure Distinct (builder : Builder) : Prop where
  nodup : (builder.graph.body.groupNames ++ (builder.bodies.map outline).flatMap Prod.snd).Nodup
  unshadowed : Unshadowed (builder.bodies.map outline)

/-! ## Growing and opening -/

theorem BodyGrows.outline {a b : Subgraph} (h : BodyGrows a b) : outline b = outline a := by
  rw [Builder.outline, Builder.outline, h.name, h.groupNames]

theorem map_outline_of_grows {a b : List Subgraph} (h : List.Forall₂ BodyGrows a b) :
    b.map outline = a.map outline := by
  induction h with
  | nil => rfl
  | cons hb _ ih => rw [List.map_cons, List.map_cons, ih, hb.outline]

theorem Distinct.grows {a b : Builder} (h : Distinct a) (hg : Grows a b) : Distinct b := by
  have hb := map_outline_of_grows hg.bodies
  exact ⟨by rw [hg.root.groupNames, hb]; exact h.nodup, hb ▸ h.unshadowed⟩

theorem groupNames_new (name : String) (attrs : Attributes) : (Subgraph.new name attrs).groupNames = [] := by
  rw [groupNames, labelsBelow_eq]
  rfl

/-- A body without groups may be opened anywhere. -/
theorem Distinct.push {builder : Builder} (h : Distinct builder) (name : String) (attrs : Attributes) :
    Distinct (builder.push (.new name attrs)) := by
  have ho : outline (.new name attrs) = (name, []) := by rw [outline, groupNames_new]; rfl
  constructor
  · show (_ ++ (outline (.new name attrs) :: builder.bodies.map outline).flatMap Prod.snd).Nodup
    rw [ho]
    exact h.nodup
  · show Unshadowed (outline (.new name attrs) :: builder.bodies.map outline)
    rw [ho]
    exact ⟨fun _ hm => absurd hm List.not_mem_nil, h.unshadowed⟩

/-! ## Attaching -/

/-- Names that move from the innermost body into a list of names leave all of them distinct. -/
theorem nodup_moved {root root' moved : List String} {bodies : List (String × List String)}
    (h : (root ++ (moved ++ bodies.flatMap Prod.snd)).Nodup) (hp : root'.Perm (root ++ moved)) :
    (root' ++ bodies.flatMap Prod.snd).Nodup := by
  refine (List.Perm.nodup_iff ?_).1 h
  rw [← List.append_assoc]
  exact hp.symm.append_right _

theorem nodup_moved_inner {root old new moved : List String} {name : String}
    {inner outer : List (String × List String)}
    (h : (root ++ (moved ++ (inner ++ (name, old) :: outer).flatMap Prod.snd)).Nodup)
    (hp : new.Perm (old ++ moved)) :
    (root ++ (inner ++ (name, new) :: outer).flatMap Prod.snd).Nodup := by
  refine (List.Perm.nodup_iff ?_).1 h
  rw [List.perm_iff_count]
  intro group
  have hc := List.perm_iff_count.1 hp group
  rw [List.count_append] at hc
  simp only [List.flatMap_append, List.flatMap_cons, List.count_append, hc]
  omega

theorem outline_receive (sub : Subgraph) (bodies : List Subgraph) :
    (bodies.map (receive sub)).map outline = bodies.map outline :=
  map_outline_of_grows (grows_receive sub bodies)

theorem AbsorbedBy.groupNames_perm {sub body body' : Subgraph} (ha : AbsorbedBy sub body body')
    (hf : (body.groupNames ++ sub.groupNames).Nodup) :
    body'.name = body.name ∧ body'.groupNames.Perm (body.groupNames ++ sub.groupNames) := by
  cases ha with
  | itself _ hr =>
    rw [hr]
    exact ⟨name_absorb .., by rw [groupNames_absorb hf]⟩
  | deeper hm =>
    obtain ⟨hl, hp, -⟩ := modify?_absorb hm hf
    exact ⟨congrArg Prod.fst hl, hp⟩

/-- A name that is not known is nowhere, unless it is empty. -/
theorem not_mem_of_unknown {builder : Builder} {name : String} (hk : builder.isKnown name = false) :
    name ∉ builder.graph.body.groupNames ++ (builder.bodies.map outline).flatMap Prod.snd ∧
      (name ≠ "" → ∀ body ∈ builder.bodies, body.name ≠ name) := by
  have hno : ¬ (name ≠ "" ∧ (name ∈ builder.graph.body.groupNames ∨
      ∃ body ∈ builder.bodies, body.name = name ∨ name ∈ body.groupNames)) := by
    rw [← isKnown_iff, hk]
    exact Bool.false_ne_true
  constructor
  · intro hm
    rcases List.mem_append.1 hm with hm | hm
    · exact hno ⟨(mem_groupNames.1 hm).1, Or.inl hm⟩
    · rw [List.flatMap_map, List.mem_flatMap] at hm
      obtain ⟨body, hb, hm⟩ := hm
      exact hno ⟨(mem_groupNames.1 hm).1, Or.inr ⟨body, hb, Or.inr hm⟩⟩
  · intro hn body hb he
    exact hno ⟨hn, Or.inr ⟨body, hb, Or.inl he⟩⟩

theorem not_mem_current_of_unknown {builder : Builder} {body : Subgraph} {outer : List Subgraph} {name : String}
    (hb : builder.bodies = body :: outer) (hk : builder.isKnown name = false) : name ∉ body.groupNames := by
  intro hm
  refine (not_mem_of_unknown hk).1 (List.mem_append_right _ ?_)
  rw [hb]
  exact List.mem_append_left _ hm

section
variable {builder result : Builder} {sub : Subgraph} (h : Distinct (builder.push sub))
include h

theorem Distinct.pushed_nodup :
    (builder.graph.body.groupNames ++ (sub.groupNames ++ (builder.bodies.map outline).flatMap Prod.snd)).Nodup :=
  h.nodup

theorem Distinct.pushed_unshadowed : ∀ name ∈ sub.groupNames, name ≠ sub.name ∧
    ∀ body ∈ builder.bodies, name ≠ body.name := by
  intro name hn
  have := h.unshadowed.1 name hn
  rw [List.map_cons, List.mem_cons, not_or] at this
  refine ⟨this.1, fun body hb he => this.2 ?_⟩
  rw [List.map_map, List.mem_map]
  exact ⟨body, hb, he.symm⟩

theorem Distinct.fresh_root : (builder.graph.body.groupNames ++ sub.groupNames).Nodup := by
  refine h.pushed_nodup.sublist ?_
  exact (List.sublist_append_left ..).append_left _

theorem Distinct.fresh_body {body : Subgraph} (hb : body ∈ builder.bodies) :
    (body.groupNames ++ sub.groupNames).Nodup := by
  have hn : (sub.groupNames ++ (builder.bodies.map outline).flatMap Prod.snd).Nodup :=
    h.pushed_nodup.sublist (List.sublist_append_right ..)
  obtain ⟨before, after, he⟩ := List.append_of_mem (List.mem_map_of_mem (f := outline) hb)
  rw [he, List.flatMap_append, List.flatMap_cons] at hn
  refine (List.Perm.nodup_iff List.perm_append_comm).1 (hn.sublist ?_)
  exact ((List.sublist_append_left ..).trans (List.sublist_append_right ..)).append_left _

/-- A body that took in the nodes of the group has the groups that it had, so no name below it is one below the group. -/
theorem Distinct.fresh_received {body : Subgraph} (hb : body ∈ builder.bodies.map (receive sub)) :
    (body.groupNames ++ sub.groupNames).Nodup := by
  obtain ⟨old, hold, rfl⟩ := List.mem_map.1 hb
  rw [(bodyGrows_receive sub old).groupNames]
  exact h.fresh_body hold

theorem properNames_labels_nodup {names : List String} (hn : (names ++ sub.groupNames).Nodup)
    (hs : sub.name ∉ names) : (names ++ properNames sub.labels).Nodup := by
  rw [properNames_labels]
  split
  · exact hn
  · refine (List.Perm.nodup_iff (List.perm_middle)).2 (List.nodup_cons.2 ⟨?_, hn⟩)
    rw [List.mem_append, not_or]
    exact ⟨hs, fun hm => (h.pushed_unshadowed _ hm).1 rfl⟩

/-- No open body has the name of a group that comes in with a new one. -/
theorem Distinct.new_names_unshadowed (ho : sub.name ≠ "" → ∀ body ∈ builder.bodies, body.name ≠ sub.name) :
    ∀ name ∈ properNames sub.labels, name ∉ (builder.bodies.map outline).map Prod.fst := by
  intro name hn hm
  rw [List.map_map, List.mem_map] at hm
  obtain ⟨body, hb, rfl⟩ := hm
  rw [properNames_labels] at hn
  split at hn
  · exact (h.pushed_unshadowed _ hn).2 body hb rfl
  · rename_i hne
    rcases List.mem_cons.1 hn with he | hn
    · exact ho hne body hb he
    · exact (h.pushed_unshadowed _ hn).2 body hb rfl

theorem Distinct.attached (ha : Attached builder sub result) : Distinct result := by
  cases ha with
  | root hb =>
    obtain ⟨-, -, hs⟩ := attach_of_fresh h.fresh_root
    have hnil : (builder.bodies.map outline) = [] := by rw [hb]; rfl
    refine ⟨?_, by show Unshadowed (builder.bodies.map outline); rw [hnil]; trivial⟩
    show ((builder.graph.body.attach sub).groupNames ++ (builder.bodies.map outline).flatMap Prod.snd).Nodup
    rw [hnil, List.flatMap_nil, List.append_nil]
    rcases hs with ⟨_, hp⟩ | ⟨hn, he⟩
    · exact (List.Perm.nodup_iff hp).2 h.fresh_root
    · rw [he]
      exact properNames_labels_nodup h h.fresh_root hn
  | @finished body ho hm =>
    obtain ⟨-, hp, -⟩ := modify?_absorb hm h.fresh_root
    have hr := outline_receive sub builder.bodies
    refine ⟨?_, by show Unshadowed ((builder.bodies.map _).map outline); rw [hr]; exact h.unshadowed.2⟩
    show (body.groupNames ++ ((builder.bodies.map _).map outline).flatMap Prod.snd).Nodup
    rw [hr]
    exact nodup_moved h.pushed_nodup hp
  | @reopened inner outer body body' hn hb ha =>
    have ho : builder.bodies.map outline = inner.map outline ++ outline body :: outer.map outline := by
      rw [← outline_receive sub, hb, List.map_append, List.map_cons]
    have hf := h.fresh_received (show body ∈ builder.bodies.map (receive sub) by rw [hb]; simp)
    obtain ⟨hname, hp⟩ := ha.groupNames_perm hf
    have hout : (inner ++ body' :: outer).map outline =
        inner.map outline ++ (body.name, body'.groupNames) :: outer.map outline := by
      rw [List.map_append, List.map_cons, outline, hname]
    have hnodup := h.pushed_nodup
    have hun := h.unshadowed.2
    rw [ho] at hnodup hun
    refine ⟨?_, ?_⟩
    · show (_ ++ ((inner ++ body' :: outer).map outline).flatMap Prod.snd).Nodup
      rw [hout]
      exact nodup_moved_inner hnodup hp
    · show Unshadowed ((inner ++ body' :: outer).map outline)
      rw [hout]
      refine Unshadowed.replace (fun group hg => ?_) hun
      rcases List.mem_append.1 (hp.mem_iff.1 hg) with hg | hg
      · exact (Unshadowed.outer hun).1 group hg
      · have := h.unshadowed.1 group hg
        rw [ho] at this
        simp only [List.map_cons, List.map_append, List.mem_cons, List.mem_append, not_or] at this
        rw [List.mem_cons, not_or]
        exact ⟨this.2.2.1, this.2.2.2⟩
  | @current body outer hb hk =>
    obtain ⟨hroot, hopen⟩ := not_mem_of_unknown hk
    have hall : ((builder.graph.body.groupNames ++ (builder.bodies.map outline).flatMap Prod.snd) ++
        properNames sub.labels).Nodup := by
      refine properNames_labels_nodup h ((List.Perm.nodup_iff ?_).1 h.pushed_nodup) hroot
      rw [List.append_assoc]
      exact List.perm_append_comm.append_left _
    have hun := h.unshadowed.2
    have hnames := h.new_names_unshadowed hopen
    rw [hb] at hall hun hroot hnames
    obtain ⟨hl, -, ⟨hm, -⟩ | ⟨-, he⟩⟩ := attach_of_fresh (h.fresh_body (hb ▸ List.mem_cons_self ..))
    · exact absurd hm (not_mem_current_of_unknown hb hk)
    have ho : outline (body.attach sub) = (body.name, body.groupNames ++ properNames sub.labels) := by
      rw [outline, he, show (body.attach sub).name = body.name from congrArg Prod.fst hl]
    constructor
    · show (_ ++ (outline (body.attach sub) :: outer.map outline).flatMap Prod.snd).Nodup
      rw [ho]
      refine (List.Perm.nodup_iff ?_).1 hall
      rw [List.perm_iff_count]
      intro group
      simp only [List.map_cons, List.flatMap_cons, List.count_append, outline]
      omega
    · show Unshadowed (outline (body.attach sub) :: outer.map outline)
      rw [ho]
      refine @Unshadowed.replace _ _ _ _ (fun group hg => ?_) [] hun
      rcases List.mem_append.1 hg with hg | hg
      · exact hun.1 group hg
      · exact hnames group hg

end

/-! ## Every call -/

/-- Taking the innermost body off its stack and pushing it again changes nothing. -/
theorem Distinct.reopen {builder : Builder} (h : Distinct builder) {sub : Subgraph} {outer : List Subgraph}
    (hb : builder.bodies = sub :: outer) :
    Distinct (({ builder.leaveScope with bodies := outer } : Builder).push sub) := by
  have hn := h.nodup
  have hu := h.unshadowed
  rw [hb] at hn hu
  exact ⟨hn, hu⟩

/-- Every call keeps group names distinct. -/
theorem Distinct.step {P : Attributes → Prop} {a b : Builder} (hs : Step P a b) (h : Distinct a) :
    Distinct b := by
  cases hs with
  | assignment _ => exact h.grows (grows_assign ..)
  | defaults category _ => exact h.grows (grows_setDefaults ..)
  | node name _ => exact h.grows (grows_declareNode ..)
  | chain chain _ => exact h.grows (grows_connect ..)
  | opening name =>
    have := h.push name (a.scopes.inherited .graph)
    exact ⟨this.nodup, this.unshadowed⟩
  | closing =>
    rcases closeSubgraph_cases a with ⟨_, he⟩ | ⟨sub, outer, hb, he⟩
    · rw [he]
      exact ⟨h.nodup, h.unshadowed⟩
    · rw [he]
      exact (h.reopen hb).attached (attach_cases ..)
  | reference name =>
    rcases referToSubgraph_cases a name with he | ⟨attrs, he⟩
    · rw [he]; exact h
    · rw [he]
      exact (h.push name attrs).attached (attach_cases ..)

end DotLang.Builder
