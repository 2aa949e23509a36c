import DotLang.Proofs.Grammar.Tree

/-!
# The derivation that a parser finds

A group without a body may stand at the end of a statement, and a group without a keyword at the beginning
of the next: the same tokens are one group with both. A parser takes them so, and a tree in which no two
statements meet like that is `Greedy`. Every tree can be regrouped into a greedy one; its tokens stay and
so does what is required of it.
-/

namespace DotLang.Grammar

/-! ## Where two statements meet -/

/-- Whether a group is a name, to which braces that follow would belong. -/
def Group.isOpen : Group → Bool
  | .reference _ => true
  | .braced .. => false

def Operand.isOpen : Operand → Bool
  | .node _ => false
  | .group g => g.isOpen

/-- Whether the last operand is open, or `before` if there is none. -/
def Chain.isOpen (before : Bool) : Chain → Bool
  | .nil => before
  | .cons _ operand rest => rest.isOpen operand.isOpen

def Stmt.isOpen : Stmt → Bool
  | .group g => g.isOpen
  | .edge _ _ second more [] => more.isOpen second.isOpen
  | _ => false

/-- A statement that begins with a brace, cut behind the brace that closes it. -/
structure Bare where
  body : Body
  chain : Chain
  attrs : List (List Assignment)

def Bare.tokens (bare : Bare) : List Token :=
  .openBrace :: (bare.body.tokens ++ .closeBrace :: (bare.chain.tokens ++ attrTokens bare.attrs))

def Stmt.bare? : Stmt → Option Bare
  | .group (.braced .absent body) => some ⟨body, .nil, []⟩
  | .edge (.group (.braced .absent body)) directed second more attrs =>
    some ⟨body, .cons directed second more, attrs⟩
  | _ => none

theorem Stmt.tokens_of_bare? {stmt : Stmt} {bare : Bare} (h : stmt.bare? = some bare) :
    stmt.tokens = bare.tokens := by
  unfold bare? at h
  split at h
  · cases h
    simp [Stmt.tokens, Group.tokens, Head.tokens, Bare.tokens, Chain.tokens, attrTokens]
  · cases h
    simp [Stmt.tokens, Operand.tokens, Group.tokens, Head.tokens, Bare.tokens, Chain.tokens]
  · cases h

/-- Whether a statement in front of others does not meet the first of them. -/
def Body.Apart (stmt : Stmt) (semicolon : Bool) : Body → Prop
  | .nil => True
  | .cons next _ _ => semicolon = false → stmt.isOpen = true → next.bare? = none

mutual
/-- Whether nowhere an open statement meets one that begins with a brace. -/
def Group.Greedy : Group → Prop
  | .braced _ body => body.Greedy
  | .reference _ => True

def Body.Greedy : Body → Prop
  | .nil => True
  | .cons stmt semicolon rest => stmt.Greedy ∧ rest.Greedy ∧ rest.Apart stmt semicolon

def Operand.Greedy : Operand → Prop
  | .node _ => True
  | .group group => group.Greedy

def Chain.Greedy : Chain → Prop
  | .nil => True
  | .cons _ operand rest => operand.Greedy ∧ rest.Greedy

def Stmt.Greedy : Stmt → Prop
  | .group group => group.Greedy
  | .edge first _ second more _ => first.Greedy ∧ second.Greedy ∧ more.Greedy
  | _ => True
end

/-! ## Joining two statements -/

def Group.adopt (body : Body) : Group → Group
  | .reference id => .braced (.keyword (some id)) body
  | .braced head own => .braced head own

def Operand.adopt (body : Body) : Operand → Operand
  | .node id => .node id
  | .group g => .group (g.adopt body)

/-- An operand and a chain, the last of which takes a body over and is followed by `tail`. -/
def Chain.adopt (body : Body) (tail : Chain) : Operand → Chain → Operand × Chain
  | operand, .nil => (operand.adopt body, tail)
  | operand, .cons directed next rest =>
    (operand, .cons directed (adopt body tail next rest).1 (adopt body tail next rest).2)

def Stmt.adopt (bare : Bare) : Stmt → Stmt
  | .group g =>
    match bare.chain with
    | .nil => .group (g.adopt bare.body)
    | .cons directed second more => .edge (.group (g.adopt bare.body)) directed second more bare.attrs
  | .edge first directed second more _ =>
    .edge first directed (Chain.adopt bare.body bare.chain second more).1
      (Chain.adopt bare.body bare.chain second more).2 bare.attrs
  | stmt => stmt

/-- A statement in front of others, joined with the first of them if the two meet. -/
def Body.consJoin (stmt : Stmt) (semicolon : Bool) : Body → Body
  | .nil => .cons stmt semicolon .nil
  | .cons next semicolon' rest =>
    match next.bare? with
    | none => .cons stmt semicolon (.cons next semicolon' rest)
    | some bare =>
      if semicolon = false ∧ stmt.isOpen = true then .cons (stmt.adopt bare) semicolon' rest
      else .cons stmt semicolon (.cons next semicolon' rest)

theorem Body.consJoin_cases (stmt : Stmt) (semicolon : Bool) (rest : Body) :
    Body.consJoin stmt semicolon rest = .cons stmt semicolon rest ∧ rest.Apart stmt semicolon ∨
      ∃ next semicolon' rest' bare, rest = .cons next semicolon' rest' ∧ next.bare? = some bare ∧
        semicolon = false ∧ stmt.isOpen = true ∧
        Body.consJoin stmt semicolon rest = .cons (stmt.adopt bare) semicolon' rest' := by
  cases rest with
  | nil => exact Or.inl ⟨rfl, trivial⟩
  | cons next semicolon' rest =>
    rw [Body.consJoin]
    cases hb : next.bare? with
    | none => exact Or.inl ⟨rfl, fun _ _ => hb⟩
    | some bare =>
      by_cases h : semicolon = false ∧ stmt.isOpen = true
      · exact Or.inr ⟨next, semicolon', rest, bare, rfl, hb, h.1, h.2, if_pos h⟩
      · exact Or.inl ⟨if_neg h, fun hs ho => absurd ⟨hs, ho⟩ h⟩

mutual
def Group.regroup : Group → Group
  | .braced head body => .braced head body.regroup
  | .reference id => .reference id

def Body.regroup : Body → Body
  | .nil => .nil
  | .cons stmt semicolon rest => .consJoin stmt.regroup semicolon rest.regroup

def Operand.regroup : Operand → Operand
  | .node id => .node id
  | .group group => .group group.regroup

def Chain.regroup : Chain → Chain
  | .nil => .nil
  | .cons directed operand rest => .cons directed operand.regroup rest.regroup

def Stmt.regroup : Stmt → Stmt
  | .group group => .group group.regroup
  | .edge first directed second more attrs => .edge first.regroup directed second.regroup more.regroup attrs
  | .defaults category first more => .defaults category first more
  | .assign name value => .assign name value
  | .node id attrs => .node id attrs
end

/-! ## The tokens stay -/

theorem Group.tokens_adopt {group : Group} (h : group.isOpen = true) (body : Body) :
    (group.adopt body).tokens = group.tokens ++ .openBrace :: (body.tokens ++ [.closeBrace]) := by
  cases group with
  | reference id => simp [Group.adopt, Group.tokens, Head.tokens, nameTokens]
  | braced head own => cases h

theorem Operand.tokens_adopt {operand : Operand} (h : operand.isOpen = true) (body : Body) :
    (operand.adopt body).tokens = operand.tokens ++ .openBrace :: (body.tokens ++ [.closeBrace]) := by
  cases operand with
  | node id => cases h
  | group group => exact group.tokens_adopt h body

theorem Chain.tokens_adopt (body : Body) (tail : Chain) : ∀ (operand : Operand) (chain : Chain),
    chain.isOpen operand.isOpen = true →
      (Chain.adopt body tail operand chain).1.tokens ++ (Chain.adopt body tail operand chain).2.tokens =
        operand.tokens ++ (chain.tokens ++ .openBrace :: (body.tokens ++ .closeBrace :: tail.tokens))
  | operand, .nil, h => by simp [Chain.adopt, operand.tokens_adopt h, Chain.tokens]
  | operand, .cons directed next rest, h => by
    have ih := Chain.tokens_adopt body tail next rest h
    simp [Chain.adopt, Chain.tokens, ih]

theorem Stmt.tokens_adopt {stmt next : Stmt} {bare : Bare} (h : stmt.isOpen = true) (hb : next.bare? = some bare) :
    (stmt.adopt bare).tokens = stmt.tokens ++ next.tokens := by
  rw [next.tokens_of_bare? hb]
  obtain ⟨body, chain, attrs⟩ := bare
  cases stmt with
  | defaults category first more => cases h
  | assign name value => cases h
  | node id attrs => cases h
  | group group =>
    have ht := group.tokens_adopt h body
    cases chain with
    | nil =>
      -- without a chain there are no attributes
      have ha : attrs = [] := by
        unfold Stmt.bare? at hb
        split at hb <;> cases hb
        rfl
      subst ha
      simp [Stmt.adopt, Stmt.tokens, Bare.tokens, Chain.tokens, attrTokens, ht]
    | cons directed second more => simp [Stmt.adopt, Stmt.tokens, Operand.tokens, Bare.tokens, Chain.tokens, ht]
  | edge first directed second more own =>
    cases own with
    | cons bracket own => cases h
    | nil =>
      have ht := Chain.tokens_adopt body chain second more h
      simp only [Stmt.adopt, Stmt.tokens, Bare.tokens, attrTokens, List.flatMap_nil, List.append_nil]
      rw [← List.append_assoc (Operand.tokens _), ht]
      simp

theorem Body.tokens_consJoin (stmt : Stmt) (semicolon : Bool) (rest : Body) :
    (Body.consJoin stmt semicolon rest).tokens = (Body.cons stmt semicolon rest).tokens := by
  rcases Body.consJoin_cases stmt semicolon rest with ⟨h, -⟩ | ⟨next, semicolon', rest, bare, rfl, hb, rfl, ho, h⟩
  · rw [h]
  · rw [h, Body.tokens, stmt.tokens_adopt ho hb, Body.tokens, Body.tokens, List.append_assoc]
    rfl

mutual
theorem Group.tokens_regroup : ∀ group : Group, group.regroup.tokens = group.tokens
  | .braced head body => by rw [Group.regroup, Group.tokens, Group.tokens, body.tokens_regroup]
  | .reference _ => rfl

theorem Body.tokens_regroup : ∀ body : Body, body.regroup.tokens = body.tokens
  | .nil => rfl
  | .cons stmt semicolon rest => by
    rw [Body.regroup, Body.tokens_consJoin, Body.tokens, Body.tokens, stmt.tokens_regroup, rest.tokens_regroup]

theorem Operand.tokens_regroup : ∀ operand : Operand, operand.regroup.tokens = operand.tokens
  | .node _ => rfl
  | .group group => group.tokens_regroup

theorem Chain.tokens_regroup : ∀ chain : Chain, chain.regroup.tokens = chain.tokens
  | .nil => rfl
  | .cons directed operand rest => by
    rw [Chain.regroup, Chain.tokens, Chain.tokens, operand.tokens_regroup, rest.tokens_regroup]

theorem Stmt.tokens_regroup : ∀ stmt : Stmt, stmt.regroup.tokens = stmt.tokens
  | .group group => group.tokens_regroup
  | .edge first directed second more attrs => by
    rw [Stmt.regroup, Stmt.tokens, Stmt.tokens, first.tokens_regroup, second.tokens_regroup, more.tokens_regroup]
  | .defaults .. => rfl
  | .assign .. => rfl
  | .node .. => rfl
end

/-! ## What is required stays -/

section
variable {directed : Bool} {depth : Nat}

theorem Group.admissible_adopt {group : Group} (h : group.isOpen = true) {body : Body} (hd : depth < maxNesting)
    (hb : body.Admissible directed (depth + 1)) : (group.adopt body).Admissible directed depth := by
  cases group with
  | reference id => exact ⟨hd, hb⟩
  | braced head own => cases h

theorem Operand.admissible_adopt {operand : Operand} (h : operand.isOpen = true) {body : Body}
    (hd : depth < maxNesting) (hb : body.Admissible directed (depth + 1)) :
    (operand.adopt body).Admissible directed depth := by
  cases operand with
  | node id => cases h
  | group group => exact group.admissible_adopt h hd hb

theorem Chain.admissible_adopt {body : Body} {tail : Chain} (hd : depth < maxNesting)
    (hb : body.Admissible directed (depth + 1)) (ht : tail.Admissible directed depth) :
    ∀ (operand : Operand) (chain : Chain), chain.isOpen operand.isOpen = true →
      operand.Admissible directed depth → chain.Admissible directed depth →
      (Chain.adopt body tail operand chain).1.Admissible directed depth ∧
        (Chain.adopt body tail operand chain).2.Admissible directed depth
  | operand, .nil, h, _, _ => ⟨operand.admissible_adopt h hd hb, ht⟩
  | _, .cons _ next rest, h, ho, hc => ⟨ho, hc.1, Chain.admissible_adopt hd hb ht next rest h hc.2.1 hc.2.2⟩

/-- What is required of a statement that begins with a brace. -/
theorem Stmt.admissible_of_bare? {stmt : Stmt} {bare : Bare} (hb : stmt.bare? = some bare)
    (h : stmt.Admissible directed depth) :
    depth < maxNesting ∧ bare.body.Admissible directed (depth + 1) ∧ bare.chain.Admissible directed depth ∧
      AttrsCanName bare.attrs := by
  unfold Stmt.bare? at hb
  split at hb
  · cases hb
    exact ⟨h.1, h.2, trivial, by simp [AttrsCanName]⟩
  · cases hb
    obtain ⟨hg, hop, hs, hm, ha⟩ := h
    exact ⟨hg.1, hg.2, ⟨hop, hs, hm⟩, ha⟩
  · cases hb

theorem Stmt.admissible_adopt {stmt next : Stmt} {bare : Bare} (ho : stmt.isOpen = true)
    (hb : next.bare? = some bare) (h : stmt.Admissible directed depth) (hn : next.Admissible directed depth) :
    (stmt.adopt bare).Admissible directed depth := by
  obtain ⟨hd, hbody, hchain, hattrs⟩ := next.admissible_of_bare? hb hn
  obtain ⟨body, chain, attrs⟩ := bare
  cases stmt with
  | defaults category first more => cases ho
  | assign name value => cases ho
  | node id own => cases ho
  | group group =>
    have hg := group.admissible_adopt ho hd hbody
    cases chain with
    | nil => exact hg
    | cons op second more => exact ⟨hg, hchain.1, hchain.2.1, hchain.2.2, hattrs⟩
  | edge first op second more own =>
    cases own with
    | cons bracket own => cases ho
    | nil =>
      obtain ⟨hf, hop, hs, hm, -⟩ := h
      have hc := Chain.admissible_adopt hd hbody hchain second more ho hs hm
      exact ⟨hf, hop, hc.1, hc.2, hattrs⟩

theorem Body.admissible_consJoin {stmt : Stmt} {semicolon : Bool} {rest : Body}
    (h : (Body.cons stmt semicolon rest).Admissible directed depth) :
    (Body.consJoin stmt semicolon rest).Admissible directed depth := by
  rcases Body.consJoin_cases stmt semicolon rest with ⟨he, -⟩ | ⟨next, semicolon', rest, bare, rfl, hb, -, ho, he⟩
  · rwa [he]
  · rw [he]
    obtain ⟨hs, hn, hr⟩ := h
    exact ⟨stmt.admissible_adopt ho hb hs hn, hr⟩

end

mutual
theorem Group.admissible_regroup {directed : Bool} : ∀ {depth : Nat} (group : Group),
    group.Admissible directed depth → group.regroup.Admissible directed depth
  | _, .braced _ body, h => ⟨h.1, body.admissible_regroup h.2⟩
  | _, .reference _, h => h

theorem Body.admissible_regroup {directed : Bool} : ∀ {depth : Nat} (body : Body),
    body.Admissible directed depth → body.regroup.Admissible directed depth
  | _, .nil, _ => trivial
  | _, .cons stmt _ rest, h =>
    Body.admissible_consJoin ⟨stmt.admissible_regroup h.1, rest.admissible_regroup h.2⟩

theorem Operand.admissible_regroup {directed : Bool} : ∀ {depth : Nat} (operand : Operand),
    operand.Admissible directed depth → operand.regroup.Admissible directed depth
  | _, .node _, _ => trivial
  | _, .group group, h => group.admissible_regroup h

theorem Chain.admissible_regroup {directed : Bool} : ∀ {depth : Nat} (chain : Chain),
    chain.Admissible directed depth → chain.regroup.Admissible directed depth
  | _, .nil, _ => trivial
  | _, .cons _ operand rest, h => ⟨h.1, operand.admissible_regroup h.2.1, rest.admissible_regroup h.2.2⟩

theorem Stmt.admissible_regroup {directed : Bool} : ∀ {depth : Nat} (stmt : Stmt),
    stmt.Admissible directed depth → stmt.regroup.Admissible directed depth
  | _, .group group, h => group.admissible_regroup h
  | _, .edge first _ second more _, h =>
    ⟨first.admissible_regroup h.1, h.2.1, second.admissible_regroup h.2.2.1, more.admissible_regroup h.2.2.2.1,
      h.2.2.2.2⟩
  | _, .defaults .., h => h
  | _, .assign .., h => h
  | _, .node .., h => h
end

/-! ## The result is greedy -/

theorem Group.greedy_adopt {group : Group} (h : group.isOpen = true) {body : Body} (hb : body.Greedy) :
    (group.adopt body).Greedy := by
  cases group with
  | reference id => exact hb
  | braced head own => cases h

theorem Operand.greedy_adopt {operand : Operand} (h : operand.isOpen = true) {body : Body} (hb : body.Greedy) :
    (operand.adopt body).Greedy := by
  cases operand with
  | node id => cases h
  | group group => exact group.greedy_adopt h hb

theorem Chain.greedy_adopt {body : Body} {tail : Chain} (hb : body.Greedy) (ht : tail.Greedy) :
    ∀ (operand : Operand) (chain : Chain), chain.isOpen operand.isOpen = true → operand.Greedy → chain.Greedy →
      (Chain.adopt body tail operand chain).1.Greedy ∧ (Chain.adopt body tail operand chain).2.Greedy
  | operand, .nil, h, _, _ => ⟨operand.greedy_adopt h hb, ht⟩
  | _, .cons _ next rest, h, ho, hc => ⟨ho, Chain.greedy_adopt hb ht next rest h hc.1 hc.2⟩

theorem Stmt.greedy_of_bare? {stmt : Stmt} {bare : Bare} (hb : stmt.bare? = some bare) (h : stmt.Greedy) :
    bare.body.Greedy ∧ bare.chain.Greedy := by
  unfold Stmt.bare? at hb
  split at hb
  · cases hb
    exact ⟨h, trivial⟩
  · cases hb
    exact ⟨h.1, h.2⟩
  · cases hb

theorem Stmt.greedy_adopt {stmt next : Stmt} {bare : Bare} (ho : stmt.isOpen = true)
    (hb : next.bare? = some bare) (h : stmt.Greedy) (hn : next.Greedy) : (stmt.adopt bare).Greedy := by
  obtain ⟨hbody, hchain⟩ := next.greedy_of_bare? hb hn
  obtain ⟨body, chain, attrs⟩ := bare
  cases stmt with
  | defaults category first more => cases ho
  | assign name value => cases ho
  | node id own => cases ho
  | group group =>
    have hg := group.greedy_adopt ho hbody
    cases chain with
    | nil => exact hg
    | cons op second more => exact ⟨hg, hchain.1, hchain.2⟩
  | edge first op second more own =>
    cases own with
    | cons bracket own => cases ho
    | nil => exact ⟨h.1, Chain.greedy_adopt hbody hchain second more ho h.2.1 h.2.2⟩

/-- Whether the statement that is cut there is open. -/
def Bare.isOpen (bare : Bare) : Bool := bare.attrs.isEmpty && bare.chain.isOpen false

theorem Stmt.isOpen_edge (first : Operand) (directed : Bool) (second : Operand) (more : Chain)
    (attrs : List (List Assignment)) :
    (Stmt.edge first directed second more attrs).isOpen = (attrs.isEmpty && more.isOpen second.isOpen) := by
  cases attrs <;> rfl

theorem Stmt.isOpen_of_bare? {stmt : Stmt} {bare : Bare} (hb : stmt.bare? = some bare) :
    stmt.isOpen = bare.isOpen := by
  unfold Stmt.bare? at hb
  split at hb
  · cases hb
    rfl
  · cases hb
    exact Stmt.isOpen_edge ..
  · cases hb

theorem Group.isOpen_adopt (group : Group) (body : Body) : (group.adopt body).isOpen = false := by
  cases group <;> rfl

theorem Operand.isOpen_adopt (operand : Operand) (body : Body) : (operand.adopt body).isOpen = false := by
  cases operand with
  | node id => rfl
  | group group => exact group.isOpen_adopt body

theorem Chain.isOpen_adopt (body : Body) (tail : Chain) : ∀ (operand : Operand) (chain : Chain),
    (Chain.adopt body tail operand chain).2.isOpen (Chain.adopt body tail operand chain).1.isOpen =
      tail.isOpen false
  | operand, .nil => by rw [Chain.adopt, operand.isOpen_adopt]
  | _, .cons _ next rest => Chain.isOpen_adopt body tail next rest

/-- A statement is as open as what it is joined with. -/
theorem Stmt.isOpen_adopt {stmt next : Stmt} {bare : Bare} (ho : stmt.isOpen = true)
    (hb : next.bare? = some bare) : (stmt.adopt bare).isOpen = next.isOpen := by
  rw [next.isOpen_of_bare? hb]
  obtain ⟨body, chain, attrs⟩ := bare
  cases stmt with
  | defaults category first more => cases ho
  | assign name value => cases ho
  | node id own => cases ho
  | group group =>
    cases chain with
    | nil => exact (group.isOpen_adopt body).trans (Bool.and_false _).symm
    | cons op second more => exact Stmt.isOpen_edge ..
  | edge first op second more own =>
    rw [Stmt.adopt, Stmt.isOpen_edge, Chain.isOpen_adopt]
    rfl

theorem Body.greedy_consJoin {stmt : Stmt} {semicolon : Bool} {rest : Body} (h : stmt.Greedy) (hr : rest.Greedy) :
    (Body.consJoin stmt semicolon rest).Greedy := by
  rcases Body.consJoin_cases stmt semicolon rest with
    ⟨he, hapart⟩ | ⟨next, semicolon', rest, bare, rfl, hb, -, ho, he⟩
  · rw [he]
    exact ⟨h, hr, hapart⟩
  · rw [he]
    obtain ⟨hn, hr, hapart⟩ := hr
    refine ⟨stmt.greedy_adopt ho hb h hn, hr, ?_⟩
    cases rest with
    | nil => trivial
    | cons last semicolon rest =>
      intro hs hj
      rw [stmt.isOpen_adopt ho hb] at hj
      exact hapart hs hj

mutual
theorem Group.greedy_regroup : ∀ group : Group, group.regroup.Greedy
  | .braced _ body => body.greedy_regroup
  | .reference _ => trivial

theorem Body.greedy_regroup : ∀ body : Body, body.regroup.Greedy
  | .nil => trivial
  | .cons stmt _ rest => Body.greedy_consJoin stmt.greedy_regroup rest.greedy_regroup

theorem Operand.greedy_regroup : ∀ operand : Operand, operand.regroup.Greedy
  | .node _ => trivial
  | .group group => group.greedy_regroup

theorem Chain.greedy_regroup : ∀ chain : Chain, chain.regroup.Greedy
  | .nil => trivial
  | .cons _ operand rest => ⟨operand.greedy_regroup, rest.greedy_regroup⟩

theorem Stmt.greedy_regroup : ∀ stmt : Stmt, stmt.regroup.Greedy
  | .group group => group.greedy_regroup
  | .edge first _ second more _ => ⟨first.greedy_regroup, second.greedy_regroup, more.greedy_regroup⟩
  | .defaults .. => trivial
  | .assign .. => trivial
  | .node .. => trivial
end

/-! ## Documents -/

def Document.Greedy (doc : Document) : Prop := doc.body.Greedy

def Document.regroup (doc : Document) : Document := { doc with body := doc.body.regroup }

theorem Document.tokens_regroup (doc : Document) : doc.regroup.tokens = doc.tokens := by
  unfold Document.tokens
  show _ ++ _ :: (_ ++ _ :: (doc.body.regroup.tokens ++ _)) = _
  rw [doc.body.tokens_regroup]
  rfl

end DotLang.Grammar
