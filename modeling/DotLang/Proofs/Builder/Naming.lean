import DotLang.Proofs.Builder.Distinct

/-!
# The names that a builder has in use

Between two calls the open bodies keep their names, and a group comes to be below one of them, or in the
finished part, only with a name that was read in between. So a name stays unknown until it is read.
-/

namespace DotLang.Builder
open Subgraph

/-- The body keeps its name, and the groups below it have names that were there or are among the new ones. -/
structure BodyExtends (names : List String) (a b : Subgraph) : Prop where
  name : b.name = a.name
  groups : ∀ name ∈ b.groupNames, name ∈ a.groupNames ∨ name ∈ names

/-- The finished part and all open bodies keep to the names that were there and to the new ones. -/
structure Extends (names : List String) (a b : Builder) : Prop where
  root : ∀ name ∈ b.graph.body.groupNames, name ∈ a.graph.body.groupNames ∨ name ∈ names
  bodies : List.Forall₂ (BodyExtends names) a.bodies b.bodies

section
variable {names more : List String} {a b c : Builder}

theorem BodyExtends.refl (names : List String) (a : Subgraph) : BodyExtends names a a := ⟨rfl, fun _ => Or.inl⟩

theorem BodyExtends.trans {a b c : Subgraph} (h : BodyExtends names a b) (h' : BodyExtends names b c) :
    BodyExtends names a c := by
  refine ⟨h'.name.trans h.name, fun name hn => ?_⟩
  rcases h'.groups name hn with hn | hn
  · exact h.groups name hn
  · exact Or.inr hn

theorem BodyExtends.mono {a b : Subgraph} (hm : ∀ name ∈ names, name ∈ more) (h : BodyExtends names a b) :
    BodyExtends more a b :=
  ⟨h.name, fun name hn => (h.groups name hn).imp_right (hm name)⟩

theorem forall₂_extends_refl (as : List Subgraph) : List.Forall₂ (BodyExtends names) as as :=
  List.forall₂_same.2 fun body _ => .refl names body

theorem Extends.refl (names : List String) (a : Builder) : Extends names a a :=
  ⟨fun _ => Or.inl, forall₂_extends_refl a.bodies⟩

theorem Extends.trans (h : Extends names a b) (h' : Extends names b c) : Extends names a c := by
  constructor
  · intro name hn
    rcases h'.root name hn with hn | hn
    · exact h.root name hn
    · exact Or.inr hn
  · exact forall₂_trans .trans h.bodies h'.bodies

theorem Extends.mono (hm : ∀ name ∈ names, name ∈ more) (h : Extends names a b) : Extends more a b :=
  ⟨fun name hn => (h.root name hn).imp_right (hm name), h.bodies.imp fun _ _ hb => hb.mono hm⟩

theorem Grows.extends (names : List String) (h : Grows a b) : Extends names a b where
  root _ hn := Or.inl (h.root.groupNames ▸ hn)
  bodies := h.bodies.imp fun _ _ hb => ⟨hb.name, fun _ hn => Or.inl (hb.groupNames ▸ hn)⟩

/-- A name that comes to be known was read in between. -/
theorem Extends.isKnown (h : Extends names a b) {name : String} (hk : b.isKnown name = true) :
    a.isKnown name = true ∨ name ∈ names := by
  obtain ⟨hne, hused⟩ := isKnown_iff.1 hk
  rw [isKnown_iff]
  rcases hused with hn | ⟨body, hb, hn⟩
  · exact (h.root name hn).imp_left fun hn => ⟨hne, Or.inl hn⟩
  · obtain ⟨old, hold, hbody⟩ := exists_mem_of_forall₂ h.bodies hb
    rcases hn with hn | hn
    · exact Or.inl ⟨hne, Or.inr ⟨old, hold, Or.inl (hbody.name ▸ hn)⟩⟩
    · exact (hbody.groups name hn).imp_left fun hn => ⟨hne, Or.inr ⟨old, hold, Or.inr hn⟩⟩

theorem isKnown_openSubgraph {builder : Builder} {opened name : String}
    (hk : (builder.openSubgraph opened).isKnown name = true) : builder.isKnown name = true ∨ name = opened := by
  obtain ⟨hne, hused⟩ := isKnown_iff.1 hk
  rw [isKnown_iff]
  rcases hused with hn | ⟨body, hb, hn⟩
  · exact Or.inl ⟨hne, Or.inl hn⟩
  · rcases List.mem_cons.1 hb with rfl | hb
    · rcases hn with hn | hn
      · exact Or.inr hn.symm
      · rw [groupNames_new] at hn
        cases hn
    · exact Or.inl ⟨hne, Or.inr ⟨body, hb, hn⟩⟩

/-- Behind what was opened, the innermost body is the one that was opened, with new groups alone. -/
theorem Extends.opened {builder last : Builder} {opened : String} (h : Extends names (builder.openSubgraph opened) last) :
    ∃ sub outer, last.bodies = sub :: outer ∧ sub.name = opened ∧ (∀ name ∈ sub.groupNames, name ∈ names) ∧
      Extends names builder { last.leaveScope with bodies := outer } := by
  have hbodies : List.Forall₂ (BodyExtends names)
      (Subgraph.new opened (builder.scopes.inherited .graph) :: builder.bodies) last.bodies := h.bodies
  revert hbodies
  generalize hlast : last.bodies = bodies
  intro hbodies
  cases hbodies with
  | @cons _ sub _ outer hsub houter =>
    refine ⟨sub, outer, rfl, hsub.name, fun name hn => ?_, ⟨h.root, houter⟩⟩
    rcases hsub.groups name hn with hn | hn
    · rw [groupNames_new] at hn
      cases hn
    · exact hn

/-! ## Attaching -/

theorem BodyExtends.of_perm {x y : Subgraph} (hn : y.name = x.name) (hp : y.groupNames.Perm (x.groupNames ++ names)) :
    BodyExtends names x y :=
  ⟨hn, fun _ hm => List.mem_append.1 (hp.mem_iff.1 hm)⟩

theorem mem_groupNames_attach {tree sub : Subgraph} (hf : (tree.groupNames ++ sub.groupNames).Nodup) {name : String}
    (hn : name ∈ (tree.attach sub).groupNames) : name ∈ tree.groupNames ∨ name ∈ properNames sub.labels := by
  obtain ⟨-, -, ⟨-, hp⟩ | ⟨-, he⟩⟩ := attach_of_fresh hf
  · exact (List.mem_append.1 (hp.mem_iff.1 hn)).imp_right fun hn => (groupNames_sublist_labels sub).subset hn
  · exact List.mem_append.1 (he ▸ hn)

/-- A group that is attached brings its own name and those of the groups below it. -/
theorem extends_attached {builder result : Builder} {sub : Subgraph} (hd : Distinct (builder.push sub))
    (ha : Attached builder sub result) : Extends (properNames sub.labels) builder result := by
  have hsame : List.Forall₂ (BodyExtends (properNames sub.labels)) builder.bodies (builder.bodies.map (receive sub)) :=
    (grows_receive sub builder.bodies).imp fun _ _ hb => ⟨hb.name, fun _ hn => Or.inl (hb.groupNames ▸ hn)⟩
  have hbelow : ∀ name ∈ sub.groupNames, name ∈ properNames sub.labels :=
    fun _ hn => (groupNames_sublist_labels sub).subset hn
  cases ha with
  | root hb =>
    exact ⟨fun name hn => mem_groupNames_attach hd.fresh_root hn, forall₂_extends_refl _⟩
  | finished ho hm =>
    refine ⟨fun name hn => ?_, hsame⟩
    obtain ⟨-, hp, -⟩ := modify?_absorb hm hd.fresh_root
    exact (List.mem_append.1 (hp.mem_iff.1 hn)).imp_right (hbelow name)
  | @reopened inner outer body body' hn hb hab =>
    refine ⟨fun _ => Or.inl, ?_⟩
    have hf := hd.fresh_received (show body ∈ builder.bodies.map (receive sub) by rw [hb]; simp)
    -- The name of the group itself does not come in again: the body has it, or has it below.
    obtain ⟨hname, hp⟩ := hab.groupNames_perm hf
    have hbody : BodyExtends (properNames sub.labels) body body' := (BodyExtends.of_perm hname hp).mono hbelow
    refine forall₂_trans .trans hsame ?_
    rw [hb]
    exact List.rel_append (forall₂_extends_refl inner) (.cons hbody (forall₂_extends_refl outer))
  | @current body outer hb hk =>
    refine ⟨fun _ => Or.inl, ?_⟩
    have hf := hd.fresh_body (hb ▸ List.mem_cons_self .. : body ∈ builder.bodies)
    have hbody : BodyExtends (properNames sub.labels) body (body.attach sub) :=
      ⟨congrArg Prod.fst (attach_of_fresh hf).1, fun _ hn => mem_groupNames_attach hf hn⟩
    rw [hb]
    exact .cons hbody (forall₂_extends_refl outer)

end

end DotLang.Builder
