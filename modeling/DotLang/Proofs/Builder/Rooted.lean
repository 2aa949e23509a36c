import DotLang.Proofs.Builder.Distinct

/-!
# Nodes reach the root

While bodies are open the root may lack nodes of the finished tree: a reopened group takes in nodes there
that the root has not seen. But all of them are nodes of the outermost open body, and an open body always
has the nodes of the groups below it among its own; so the root has all of them when that body ends.
-/

namespace DotLang.Builder
open Subgraph

/-- The node is one of the outermost open body's own. -/
def InOutermost (name : String) (bodies : List Subgraph) : Prop :=
  ∃ body ∈ bodies.getLast?, name ∈ body.nodes.names

structure Rooted (builder : Builder) : Prop where
  gathered : ∀ body ∈ builder.bodies, ∀ name ∈ body.memberNames, name ∈ body.nodes.names
  rooted : ∀ name ∈ builder.graph.body.memberNames,
    name ∈ builder.graph.nodes.names ∨ InOutermost name builder.bodies

theorem inOutermost_cons {name : String} {body : Subgraph} {outer : List Subgraph} (h : outer ≠ []) :
    InOutermost name (body :: outer) ↔ InOutermost name outer := by
  unfold InOutermost
  rw [List.getLast?_cons, List.getLast?_eq_some_getLast h]
  rfl

theorem InOutermost.of_all {name : String} {bodies : List Subgraph} (hne : bodies ≠ [])
    (h : ∀ body ∈ bodies, name ∈ body.nodes.names) : InOutermost name bodies :=
  ⟨bodies.getLast hne, List.getLast?_eq_some_getLast hne, h _ (List.getLast_mem hne)⟩

/-- The outermost body keeps its nodes while all bodies keep theirs. -/
theorem InOutermost.mono {name : String} {a b : List Subgraph}
    (h : List.Forall₂ (fun a b => ∀ name ∈ a.nodes.names, name ∈ b.nodes.names) a b)
    (ha : InOutermost name a) : InOutermost name b := by
  induction h with
  | nil => exact ha
  | @cons x y xs ys hxy hrest ih =>
    cases hrest with
    | nil =>
      obtain ⟨body, hb, hn⟩ := ha
      obtain rfl := Option.some.inj hb
      exact ⟨y, rfl, hxy name hn⟩
    | cons _ _ =>
      rw [inOutermost_cons (List.cons_ne_nil _ _)] at ha ⊢
      exact ih ha

/-! ## Growing and opening -/

theorem BodyGrows.mem_memberNames {a b : Subgraph} (h : BodyGrows a b) {name : String}
    (hm : name ∈ b.memberNames) : name ∈ b.nodes.names ∨ name ∈ a.memberNames := by
  rw [memberNames_cons, List.mem_append, h.labelsBelow] at hm
  refine hm.imp_right fun hm => ?_
  rw [memberNames_cons]
  exact List.mem_append_right _ hm

theorem Rooted.grows {a b : Builder} (h : Rooted a) (hg : Grows a b) : Rooted b := by
  constructor
  · intro body hb name hm
    obtain ⟨old, hold, hbody⟩ := exists_mem_of_forall₂ hg.bodies hb
    rcases hbody.mem_memberNames hm with hm | hm
    · exact hm
    · exact hbody.nodes name (h.gathered old hold name hm)
  · intro name hm
    rcases hg.root.mem_memberNames hm with hm | hm
    · exact Or.inl hm
    · refine (h.rooted name hm).imp (hg.root.nodes name) fun ho => ?_
      exact ho.mono (hg.bodies.imp fun _ _ hb => hb.nodes)

theorem memberNames_new (name : String) (attrs : Attributes) : (Subgraph.new name attrs).memberNames = [] := by
  rw [memberNames_cons, labelsBelow_eq]
  rfl

theorem Rooted.push {builder : Builder} (h : Rooted builder) (name : String) (attrs : Attributes) :
    Rooted (builder.push (.new name attrs)) := by
  constructor
  · intro body hb other hm
    rcases List.mem_cons.1 hb with rfl | hb
    · rw [memberNames_new] at hm
      cases hm
    · exact h.gathered body hb other hm
  · intro other hm
    refine (h.rooted other hm).imp_right fun ho => ?_
    have hne : builder.bodies ≠ [] := by
      intro hnil
      obtain ⟨body, hb, -⟩ := ho
      rw [hnil] at hb
      cases hb
    exact (inOutermost_cons hne).2 ho

/-! ## Attaching -/

theorem mem_nodes_receive {sub body : Subgraph} {name : String} :
    name ∈ (receive sub body).nodes.names ↔ name ∈ body.nodes.names ∨ name ∈ sub.memberNames := by
  rw [memberNames_eq]
  exact NodeMap.mem_names_addAll

/-- A body that takes in the nodes of a group has them, and still those of the groups below it. -/
theorem gathered_receive {sub body : Subgraph} (h : ∀ name ∈ body.memberNames, name ∈ body.nodes.names) :
    ∀ name, name ∈ (receive sub body).memberNames ∨ name ∈ sub.memberNames →
      name ∈ (receive sub body).nodes.names := by
  rintro name (hm | hm)
  · rcases (bodyGrows_receive sub body).mem_memberNames hm with hm | hm
    · exact hm
    · exact mem_nodes_receive.2 (Or.inl (h name hm))
  · exact mem_nodes_receive.2 (Or.inr hm)

theorem AbsorbedBy.mem_memberNames {sub body body' : Subgraph} (ha : AbsorbedBy sub body body')
    (hf : (body.groupNames ++ sub.groupNames).Nodup) {name : String} :
    name ∈ body'.memberNames ↔ name ∈ body.memberNames ∨ name ∈ sub.memberNames := by
  cases ha with
  | itself _ hr => rw [hr, mem_memberNames_absorb hf]
  | deeper hm => exact (modify?_absorb hm hf).2.2 name

theorem AbsorbedBy.nodes {sub body body' : Subgraph} (ha : AbsorbedBy sub body body') :
    ∀ name ∈ body.nodes.names, name ∈ body'.nodes.names := by
  intro name hn
  cases ha with
  | itself _ hr =>
    rw [hr, show (body.absorb sub).nodes = _ from congrArg (·.2.2) (label_absorb body sub)]
    exact NodeMap.mem_names_addAll.2 (Or.inl hn)
  | deeper hm => rwa [show body'.nodes = body.nodes from congrArg (·.2.2) (modify?_eq_some hm).2.1]

theorem Rooted.attached {builder result : Builder} {sub : Subgraph} (hd : Distinct (builder.push sub))
    (h : Rooted (builder.push sub)) (ha : Attached builder sub result) : Rooted result := by
  have hsub : ∀ name ∈ sub.memberNames, name ∈ sub.nodes.names := h.gathered sub (List.mem_cons_self ..)
  have hbodies : ∀ body ∈ builder.bodies, ∀ name ∈ body.memberNames, name ∈ body.nodes.names :=
    fun body hb => h.gathered body (List.mem_cons_of_mem _ hb)
  cases ha with
  | root hb =>
    obtain ⟨hl, hm, -⟩ := attach_of_fresh hd.fresh_root
    have hn : (builder.graph.body.attach sub).nodes = builder.graph.body.nodes.addAll sub.allNodes :=
      congrArg (·.2.2) hl
    refine ⟨fun body hbody => absurd (show body ∈ builder.bodies from hbody) (by rw [hb]; exact List.not_mem_nil),
      fun name hname => Or.inl ?_⟩
    show name ∈ (builder.graph.body.attach sub).nodes.names
    rw [hn, NodeMap.mem_names_addAll, ← memberNames_eq]
    rcases (hm name).1 hname with hname | hname
    · refine (h.rooted name hname).imp_right fun ho => ?_
      obtain ⟨body, hlast, hbody⟩ := ho
      rw [show (builder.push sub).bodies = [sub] from congrArg (sub :: ·) hb] at hlast
      obtain rfl := Option.some.inj hlast
      rw [memberNames_cons]
      exact List.mem_append_left _ hbody
    · exact Or.inr hname
  | @finished root ho hm =>
    obtain ⟨hl, -, hmem⟩ := modify?_absorb hm hd.fresh_root
    constructor
    · intro body hbody name hname
      obtain ⟨old, hold, rfl⟩ := List.mem_map.1 hbody
      exact gathered_receive (hbodies old hold) name (Or.inl hname)
    · intro name hname
      have hn : root.nodes = builder.graph.body.nodes := congrArg (·.2.2) hl
      show name ∈ root.nodes.names ∨ InOutermost name (builder.bodies.map (receive sub))
      rw [hn]
      rcases (hmem name).1 hname with hname | hname
      · refine (h.rooted name hname).imp_right fun ho' => ?_
        refine InOutermost.mono ?_ ((inOutermost_cons ho).1 ho')
        exact (grows_receive sub builder.bodies).imp fun _ _ hb => hb.nodes
      · refine Or.inr (InOutermost.of_all (by simpa using ho) fun body hbody => ?_)
        obtain ⟨old, hold, rfl⟩ := List.mem_map.1 hbody
        exact mem_nodes_receive.2 (Or.inr hname)
  | @reopened inner outer body body' hn hb ha =>
    have hold : ∀ other ∈ inner ++ body :: outer, ∃ old ∈ builder.bodies, receive sub old = other := by
      intro other ho
      rwa [← hb, List.mem_map] at ho
    have hf := hd.fresh_received (show body ∈ builder.bodies.map (receive sub) by rw [hb]; simp)
    have hgather : ∀ other ∈ inner ++ body :: outer, ∀ name,
        name ∈ other.memberNames ∨ name ∈ sub.memberNames → name ∈ other.nodes.names := by
      intro other ho
      obtain ⟨old, hin, rfl⟩ := hold other ho
      exact gathered_receive (hbodies old hin)
    constructor
    · intro other hother name hname
      have hother : other ∈ inner ++ body' :: outer := hother
      rw [List.mem_append, List.mem_cons] at hother
      rcases hother with ho | rfl | ho
      · exact hgather other (by simp [ho]) name (Or.inl hname)
      · exact ha.nodes name (hgather body (by simp) name ((ha.mem_memberNames hf).1 hname))
      · exact hgather other (by simp [ho]) name (Or.inl hname)
    · intro name hname
      refine (h.rooted name hname).imp_right fun ho => ?_
      have hne : builder.bodies ≠ [] := by
        intro hnil
        rw [hnil] at hb
        simp at hb
      have hmap : InOutermost name (builder.bodies.map (receive sub)) :=
        InOutermost.mono ((grows_receive sub builder.bodies).imp fun _ _ hb => hb.nodes)
          ((inOutermost_cons hne).1 ho)
      rw [hb] at hmap
      refine InOutermost.mono (List.rel_append ?_ (.cons ha.nodes ?_)) hmap
      · exact List.forall₂_same.2 fun _ _ _ hx => hx
      · exact List.forall₂_same.2 fun _ _ _ hx => hx
  | @current body outer hb hk =>
    have hbody : body ∈ builder.bodies := hb ▸ List.mem_cons_self ..
    obtain ⟨hl, hm, -⟩ := attach_of_fresh (hd.fresh_body hbody)
    have hn : (body.attach sub).nodes = body.nodes.addAll sub.allNodes := congrArg (·.2.2) hl
    have hkeep : ∀ name ∈ body.nodes.names, name ∈ (body.attach sub).nodes.names := by
      intro name hname
      rw [hn, NodeMap.mem_names_addAll]
      exact Or.inl hname
    constructor
    · intro other hother name hname
      rcases List.mem_cons.1 hother with rfl | ho
      · rw [hn, NodeMap.mem_names_addAll, ← memberNames_eq]
        exact ((hm name).1 hname).imp_left (hbodies body hbody name)
      · exact hbodies other (hb ▸ List.mem_cons_of_mem _ ho) name hname
    · intro name hname
      refine (h.rooted name hname).imp_right fun ho => ?_
      have ho := (inOutermost_cons (by rw [hb]; exact List.cons_ne_nil _ _)).1 ho
      rw [hb] at ho
      exact InOutermost.mono (.cons hkeep (List.forall₂_same.2 fun _ _ _ hx => hx)) ho

/-- Every call leaves no node behind. -/
theorem Rooted.step {P : Attributes → Prop} {a b : Builder} (hs : Step P a b) (hd : Distinct a) (h : Rooted a) :
    Rooted b := by
  cases hs with
  | assignment _ => exact h.grows (grows_assign ..)
  | defaults category _ => exact h.grows (grows_setDefaults ..)
  | node name _ => exact h.grows (grows_declareNode ..)
  | chain chain _ => exact h.grows (grows_connect ..)
  | opening name =>
    have := h.push name (a.scopes.inherited .graph)
    exact ⟨this.gathered, this.rooted⟩
  | closing =>
    rcases closeSubgraph_cases a with ⟨_, he⟩ | ⟨sub, outer, hb, he⟩
    · rw [he]
      exact ⟨h.gathered, h.rooted⟩
    · have hg := h.gathered
      have hr := h.rooted
      rw [hb] at hg hr
      have hopen : Rooted (({ a.leaveScope with bodies := outer } : Builder).push sub) := ⟨hg, hr⟩
      rw [he]
      exact hopen.attached (hd.reopen hb) (attach_cases ..)
  | reference name =>
    rcases referToSubgraph_cases a name with he | ⟨attrs, he⟩
    · rw [he]; exact h
    · rw [he]
      exact (h.push name attrs).attached (hd.push name attrs) (attach_cases ..)

end DotLang.Builder
