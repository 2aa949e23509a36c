import DotLang.Proofs.Grammar.Soundness

/-!
# Bodies read alike

If two readers of nested bodies agree wherever something holds, then so do the statements around those bodies, as
long as what holds of a statement is kept from one to the next and leads to it where a body opens.
-/

namespace DotLang.Parse
open Grammar

section
variable {α β : Type} {p : Parser}

theorem bind_congr {x y : Parse α} {f g : α → Parse β} (hx : x p = y p)
    (hf : ∀ a q, y p = .ok a q → f a q = g a q) : (x >>= f) p = (y >>= g) p := by
  show EStateM.bind x f p = EStateM.bind y g p
  unfold EStateM.bind
  rw [hx]
  cases h : y p with
  | ok a q => exact hf a q h
  | error error q => rfl

end

/-- Where `inner` holds, both read the same. -/
def Agrees (inner : Builder → Parser → Prop) (watched body : Builder → Parse Builder) : Prop :=
  ∀ ⦃builder : Builder⦄ ⦃p : Parser⦄, inner builder p → watched builder p = body builder p

/-- `outer` is kept while tokens are passed and as many bodies are open, and `inner` holds where one more opens. -/
structure Carries (outer inner : Builder → Parser → Prop) : Prop where
  pass {builder result : Builder} {p q : Parser} {ts : List Token} (h : outer builder p) (hp : Passes p ts q)
    (hl : result.bodies.length = builder.bodies.length) : outer result q
  enter {builder : Builder} {p q : Parser} (name : String) (h : outer builder p) (hlt : p.depth < maxNesting)
    (hp : Passes p [.openBrace] q) : inner (builder.openSubgraph name) { q with depth := q.depth + 1 }

section
variable {outer inner : Builder → Parser → Prop} (hc : Carries outer inner)
  {watched body : Builder → Parse Builder} (hw : Agrees inner watched body) {builder : Builder} {p : Parser}
include hc hw

theorem bracedGroup_congr (h : outer builder p) (name : String) :
    bracedGroup watched builder name p = bracedGroup body builder name p := by
  unfold bracedGroup
  rw [bind_token, bind_get, bind_token, bind_get]
  split
  · exact bind_congr rfl fun _ _ hn => absurd hn unexpected_ne_ok
  · rename_i hn
    apply bind_congr rfl
    intro _ q hq
    rw [bind_modify, bind_modify]
    apply bind_congr _ fun _ _ _ => rfl
    -- The guard has left room for one more body.
    have hopen := passes_of_expect hq (by simp)
    have hlt : p.depth < maxNesting :=
      Nat.lt_of_not_le fun hd => hn ⟨Parser.token_of_ahead hopen.ahead, hd⟩
    exact hw (hc.enter name h hlt hopen)

theorem subgraph_congr (h : outer builder p) : subgraph watched builder p = subgraph body builder p := by
  unfold subgraph
  rw [bind_token, bind_token]
  split
  · rename_i hk
    apply bind_congr rfl
    intro _ p₁ h₁
    apply bind_congr rfl
    intro text p₂ h₂
    rw [bind_token, bind_token]
    split
    · rfl
    · have hkeyword := passes_of_advance h₁ hk (by simp)
      obtain ⟨id, hid, -⟩ := name_sound h₂
      exact bracedGroup_congr hc hw (hc.pass h (hkeyword.cons hid) rfl) text
  · exact bracedGroup_congr hc hw h ""

theorem operand_congr (h : outer builder p) : operand watched builder p = operand body builder p := by
  have hgroup : (subgraph watched builder >>= fun found => pure (Operand.group found.1, found.2)) p =
      (subgraph body builder >>= fun found => pure (Operand.group found.1, found.2)) p :=
    bind_congr (subgraph_congr hc hw h) fun _ _ _ => rfl
  unfold operand
  rw [bind_token, bind_token]
  generalize p.token = t
  split
  · exact hgroup
  · exact hgroup
  · rfl

variable (hbody : ReadsBodies body)
include hbody

theorem chainFrom_congr {fuel : Nat} {builder : Builder} {chain : List Operand} (h : outer builder p) :
    chainFrom watched fuel builder chain p = chainFrom body fuel builder chain p := by
  induction fuel generalizing builder chain p with
  | zero => rfl
  | succ fuel ih =>
    unfold chainFrom
    rw [bind_token, bind_token]
    split
    · rw [bind_token, bind_token]
      split
      · exact bind_congr rfl fun _ _ _ => bind_congr rfl fun _ _ hn => absurd hn throw_ne_ok
      · rename_i ht
        rw [Decidable.not_not] at ht
        apply bind_congr rfl
        intro _ p₁ h₁
        have hop := passes_of_advance h₁ ht (Token.edgeOp_ne_eof _)
        have houter : outer builder p₁ := hc.pass h hop rfl
        apply bind_congr (operand_congr hc hw houter)
        rintro ⟨next, builder'⟩ p₂ h₂
        -- Behind an operand as many bodies are open as in front of it.
        obtain ⟨operand, ho, hr, -⟩ := operand_sound hbody h₂
        apply ih
        apply hc.pass houter ho
        rw [← operand.length_run builder, hr]
    · rfl

theorem edgeStatement_congr (first : Operand) (h : outer builder p) :
    edgeStatement watched builder first p = edgeStatement body builder first p := by
  unfold edgeStatement
  rw [bind_fuel, bind_fuel]
  exact bind_congr (chainFrom_congr hc hw hbody h) fun _ _ _ => rfl

theorem idStatement_congr (h : outer builder p) : idStatement watched builder p = idStatement body builder p := by
  unfold idStatement
  rw [bind_get, bind_get]
  apply bind_congr rfl
  intro i p₁ h₁
  obtain ⟨id, hid, rfl⟩ := ident_sound h₁
  rw [bind_token, bind_token]
  split
  · rfl
  · apply bind_congr rfl
    intro e p₂ h₂
    obtain ⟨port, hp, rfl⟩ := endpoint_sound h₂
    rw [bind_token, bind_token]
    split
    · exact edgeStatement_congr hc hw hbody _ (hc.pass h (hid.trans hp) rfl)
    · rfl

theorem groupStatement_congr (h : outer builder p) :
    groupStatement watched builder p = groupStatement body builder p := by
  unfold groupStatement
  apply bind_congr (subgraph_congr hc hw h)
  rintro ⟨names, builder'⟩ p₁ h₁
  obtain ⟨group, hg, hr, -⟩ := subgraph_sound hbody h₁
  dsimp only
  rw [bind_token, bind_token]
  split
  · apply edgeStatement_congr hc hw hbody
    apply hc.pass h hg
    rw [← group.length_run builder, hr]
  · rfl

theorem statement_congr (h : outer builder p) : statement watched builder p = statement body builder p := by
  unfold statement
  rw [bind_token, bind_token]
  generalize p.token = t
  split
  · rfl
  · rfl
  · rfl
  · exact groupStatement_congr hc hw hbody h
  · exact groupStatement_congr hc hw hbody h
  · split
    · exact idStatement_congr hc hw hbody h
    · rfl

theorem bodyRound_congr (h : outer builder p) : bodyRound watched builder p = bodyRound body builder p := by
  unfold bodyRound
  rw [bind_token, bind_token]
  generalize p.token = t
  split
  · rfl
  · rfl
  · exact bind_congr (statement_congr hc hw hbody h) fun _ _ _ => rfl

end

/-! ## Documents -/

def graphWith (readBody : Nat → Builder → Parse Builder) : Parse Graph := do
  let strict := (← token) = .keyword .strict
  if strict then advance
  let directed ← directedness
  let name ← name
  expect .openBrace .openBrace
  let builder ← readBody (← fuel) (Builder.new name ⟨directed, strict⟩).enterScope
  return builder.leaveScope.graph

def documentWith (readBody : Nat → Builder → Parse Builder) : Parse Graph := do
  advance
  let graph ← graphWith readBody
  if (← token) ≠ .eof then unexpected .endOfInput
  note [.parsed graph.kind graph.nodes.size graph.edges.length]
  return graph

theorem documentWith_body : documentWith body = document := rfl

section
variable {readBody : Nat → Builder → Parse Builder} {p : Parser}

/-- It is enough to agree where no body of a group is open, nor one more than at the start. -/
theorem graphWith_congr (h : ∀ {builder : Builder} {q : Parser}, builder.bodies = [] → q.depth = p.depth →
      readBody (q.lexer.rest.length + 2) builder q = body (q.lexer.rest.length + 2) builder q) :
    graphWith readBody p = graph p := by
  -- Behind the keyword `strict`, or without it.
  have key (strict : Bool) {p₁ : Parser} (hp₁ : p₁.depth = p.depth) :
      (do
        let directed ← directedness
        let name ← name
        expect .openBrace .openBrace
        let builder ← readBody (← fuel) (Builder.new name ⟨directed, strict⟩).enterScope
        return builder.leaveScope.graph : Parse Graph) p₁ =
      (do
        let directed ← directedness
        let name ← name
        expect .openBrace .openBrace
        let builder ← body (← fuel) (Builder.new name ⟨directed, strict⟩).enterScope
        return builder.leaveScope.graph : Parse Graph) p₁ := by
    apply bind_congr rfl
    intro directed p₂ h₂
    apply bind_congr rfl
    intro text p₃ h₃
    apply bind_congr rfl
    intro _ p₄ h₄
    rw [bind_fuel, bind_fuel]
    apply bind_congr _ fun _ _ _ => rfl
    have hkind := directedness_sound h₂
    obtain ⟨id, hid, -⟩ := name_sound h₃
    have hopen := passes_of_expect h₄ (by simp)
    exact h rfl (by rw [hopen.depth, hid.depth, hkind.depth, hp₁])
  unfold graphWith graph
  rw [bind_token, bind_token]
  dsimp only
  split
  · apply bind_congr rfl
    intro _ p₁ h₁
    exact key _ (depth_of_advance h₁)
  · exact key _ rfl

theorem documentWith_congr (h : ∀ {builder : Builder} {q : Parser}, builder.bodies = [] → q.depth = p.depth →
      readBody (q.lexer.rest.length + 2) builder q = body (q.lexer.rest.length + 2) builder q) :
    documentWith readBody p = document p := by
  unfold documentWith document
  apply bind_congr rfl
  intro _ p₁ h₁
  apply bind_congr _ fun _ _ _ => rfl
  exact graphWith_congr fun hb hd => h hb (hd.trans (depth_of_advance h₁))

end

end DotLang.Parse
