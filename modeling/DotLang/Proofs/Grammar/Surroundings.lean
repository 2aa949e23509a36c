import DotLang.Proofs.Builder.Naming
import DotLang.Proofs.Grammar.Running
import DotLang.Proofs.WellFormed

/-!
# What a tree leaves as it was

Defaults end with the body in which they are set: a group leaves all of them as they were, and a statement
changes none but those of the body it stands in. The names that come to be known are those that groups give
and refer to.
-/

namespace DotLang

/-! ## Scopes -/

namespace ScopedMap

theorem pop_insert {κ ν : Type} [DecidableEq κ] (map : ScopedMap κ ν) (key : κ) (value : ν) :
    (map.insert key value).pop = map.pop := by
  unfold insert
  split
  · rfl
  · rename_i scope outer h
    unfold pop
    rw [h]
    rfl

end ScopedMap

namespace Scopes

theorem pop_push (scopes : Scopes) : scopes.push.pop = scopes := rfl

theorem pop_merge (scopes : Scopes) (category : Category) (attrs : Attributes) :
    (scopes.merge category attrs).pop = scopes.pop := by
  have hfold (entries : List Attribute) (map : ScopedMap String AttrValue) :
      (entries.foldl (fun map attr => map.insert attr.name attr.value) map).pop = map.pop := by
    induction entries generalizing map with
    | nil => rfl
    | cons attr entries ih => rw [List.foldl_cons, ih, ScopedMap.pop_insert]
  cases category <;> simp [merge, pop, hfold]

end Scopes

namespace Grammar
open Builder Subgraph

/-! ## Defaults -/

/-- The scopes behind a statement. -/
def Stmt.scopes (scopes : Scopes) : Stmt → Scopes
  | .defaults category first more => scopes.merge category (attributesOf (first :: more))
  | _ => scopes

def Body.scopes (scopes : Scopes) : Body → Scopes
  | .nil => scopes
  | .cons stmt _ rest => rest.scopes (stmt.scopes scopes)

theorem Stmt.pop_scopes (scopes : Scopes) (stmt : Stmt) : (stmt.scopes scopes).pop = scopes.pop := by
  cases stmt with
  | defaults category first more => exact scopes.pop_merge ..
  | _ => rfl

theorem Body.pop_scopes : ∀ (body : Body) (scopes : Scopes), (body.scopes scopes).pop = scopes.pop
  | .nil, _ => rfl
  | .cons stmt _ rest, scopes => by rw [Body.scopes, rest.pop_scopes, stmt.pop_scopes]

mutual
/-- A group leaves the defaults as they were. -/
theorem Group.scopes_run : ∀ (group : Group) (builder : Builder), (group.run builder).2.scopes = builder.scopes
  | .braced head body, builder => by
    rw [Group.run, scopes_closeSubgraph, body.scopes_run, body.pop_scopes]
    exact builder.scopes.pop_push
  | .reference id, builder => scopes_referToSubgraph builder id.text

theorem Body.scopes_run : ∀ (body : Body) (builder : Builder), (body.run builder).scopes = body.scopes builder.scopes
  | .nil, _ => rfl
  | .cons stmt _ rest, builder => by rw [Body.run, rest.scopes_run, stmt.scopes_run, Body.scopes]

theorem Operand.scopes_run : ∀ (operand : Operand) (builder : Builder), (operand.run builder).2.scopes = builder.scopes
  | .node _, _ => rfl
  | .group group, builder => group.scopes_run builder

theorem Chain.scopes_run : ∀ (chain : Chain) (builder : Builder), (chain.run builder).2.scopes = builder.scopes
  | .nil, _ => rfl
  | .cons _ operand rest, builder => by rw [Chain.run, rest.scopes_run, operand.scopes_run]

theorem Stmt.scopes_run : ∀ (stmt : Stmt) (builder : Builder), (stmt.run builder).scopes = stmt.scopes builder.scopes
  | .defaults category first more, builder => scopes_setDefaults ..
  | .assign _ _, builder => scopes_modifyCurrent ..
  | .node _ _, builder => scopes_modifyCurrent ..
  | .group group, builder => group.scopes_run builder
  | .edge first _ second more _, builder => by
    rw [Stmt.run, scopes_connect, more.scopes_run, second.scopes_run, first.scopes_run]
    rfl
end

/-! ## Names -/

mutual
/-- The names that the groups of a tree give and refer to. -/
def Group.headings : Group → List String
  | .braced head body => head.name :: body.headings
  | .reference id => [id.text]

def Body.headings : Body → List String
  | .nil => []
  | .cons stmt _ rest => stmt.headings ++ rest.headings

def Operand.headings : Operand → List String
  | .node _ => []
  | .group group => group.headings

def Chain.headings : Chain → List String
  | .nil => []
  | .cons _ operand rest => operand.headings ++ rest.headings

def Stmt.headings : Stmt → List String
  | .defaults .. | .assign .. | .node .. => []
  | .group group => group.headings
  | .edge first _ second more _ => first.headings ++ (second.headings ++ more.headings)
end

section
variable {names : List String}

mutual
theorem Group.extends_run : ∀ (group : Group) {builder : Builder}, Sound builder → (∀ name ∈ group.headings, name ∈ names) →
    Extends names builder (group.run builder).2
  | .braced head body, builder, hs, hn => by
    rw [Group.headings, List.forall_mem_cons] at hn
    have hopen := hs.opened head.name
    obtain ⟨sub, outer, hb, hname, hgroups, hext⟩ := (body.extends_run hopen hn.2).opened
    have hlabels : ∀ name ∈ properNames sub.labels, name ∈ names := by
      intro name hm
      rw [properNames_labels] at hm
      split at hm
      · exact hgroups name hm
      · rcases List.mem_cons.1 hm with rfl | hm
        · exact hname ▸ hn.1
        · exact hgroups name hm
    have hdistinct := (sound_body hopen body).distinct.reopen hb
    rw [Group.run, closeSubgraph_of_cons hb]
    exact hext.trans ((extends_attached hdistinct (attach_cases ..)).mono hlabels)
  | .reference id, builder, hs, hn => by
    rw [Group.run]
    rcases referToSubgraph_cases builder id.text with he | ⟨attrs, he⟩
    · rw [he]
      exact .refl names builder
    · have hlabels : ∀ name ∈ properNames (Subgraph.new id.text attrs).labels, name ∈ names := by
        intro name hm
        rw [properNames_labels, groupNames_new] at hm
        split at hm
        · cases hm
        · rw [List.mem_singleton.1 hm]
          exact hn _ (List.mem_singleton_self _)
      rw [he]
      exact (extends_attached (hs.distinct.push id.text attrs) (attach_cases ..)).mono hlabels

theorem Body.extends_run : ∀ (body : Body) {builder : Builder}, Sound builder → (∀ name ∈ body.headings, name ∈ names) →
    Extends names builder (body.run builder)
  | .nil, builder, _, _ => .refl names builder
  | .cons stmt _ rest, builder, hs, hn => by
    rw [Body.headings, List.forall_mem_append] at hn
    exact (stmt.extends_run hs hn.1).trans (rest.extends_run (sound_stmt hs stmt) hn.2)

theorem Operand.extends_run : ∀ (operand : Operand) {builder : Builder}, Sound builder →
    (∀ name ∈ operand.headings, name ∈ names) → Extends names builder (operand.run builder).2
  | .node _, builder, _, _ => .refl names builder
  | .group group, _, hs, hn => group.extends_run hs hn

theorem Chain.extends_run : ∀ (chain : Chain) {builder : Builder}, Sound builder →
    (∀ name ∈ chain.headings, name ∈ names) → Extends names builder (chain.run builder).2
  | .nil, builder, _, _ => .refl names builder
  | .cons _ operand rest, builder, hs, hn => by
    rw [Chain.headings, List.forall_mem_append] at hn
    exact (operand.extends_run hs hn.1).trans (rest.extends_run (sound_operand hs operand) hn.2)

theorem Stmt.extends_run : ∀ (stmt : Stmt) {builder : Builder}, Sound builder →
    (∀ name ∈ stmt.headings, name ∈ names) → Extends names builder (stmt.run builder)
  | .defaults _ _ _, _, _, _ => (grows_setDefaults ..).extends names
  | .assign _ _, _, _, _ => (grows_assign ..).extends names
  | .node _ _, _, _, _ => (grows_declareNode ..).extends names
  | .group group, _, hs, hn => group.extends_run hs hn
  | .edge first _ second more _, builder, hs, hn => by
    rw [Stmt.headings, List.forall_mem_append, List.forall_mem_append] at hn
    have hfirst := sound_operand hs first
    have hsecond := sound_operand hfirst second
    refine (first.extends_run hs hn.1).trans ((second.extends_run hfirst hn.2.1).trans ?_)
    exact (more.extends_run hsecond hn.2.2).trans ((grows_connect ..).extends names)
end

end

end Grammar

end DotLang
