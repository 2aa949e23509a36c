import DotLang.Proofs.Grammar.Rounds
import DotLang.Proofs.Grammar.Running

/-!
# What a parser accepts has a derivation

An action that succeeds has passed the tokens of a derivation tree, and its result is what the tree says.
The leaves come first, then statements for any reader of nested bodies of which that is known, and at last
the loop over the statements of a body.
-/

namespace DotLang.Grammar
open Parse

section
variable {p q : Parser}

/-! ## IDs -/

theorem concatenationRound_sound {text : String} {result : String ⊕ String}
    (h : concatenationRound text p = .ok result q) :
    (∃ more, Passes p [.plus, .quoted more] q ∧ result = .inl (text ++ more)) ∨
      (q = p ∧ result = .inr text ∧ p.token ≠ .plus) := by
  unfold concatenationRound at h
  rw [bind_token] at h
  split at h
  · rename_i hp
    obtain ⟨_, p₁, h₁, h⟩ := bind_ok.1 h
    rw [bind_token] at h
    generalize hq : p₁.token = t at h
    split at h
    · rename_i more
      obtain ⟨_, p₂, h₂, h⟩ := bind_ok.1 h
      obtain ⟨rfl, rfl⟩ := pure_ok.1 h
      have hplus := passes_of_advance h₁ hp (by simp)
      have hmore := passes_of_advance h₂ hq (by simp)
      exact Or.inl ⟨more, hplus.cons hmore, rfl⟩
    · exact absurd h unexpected_ne_ok
  · rename_i hp
    obtain ⟨rfl, rfl⟩ := pure_ok.1 h
    exact Or.inr ⟨rfl, rfl, hp⟩

theorem concatenation_sound {fuel : Nat} {text result : String} (h : concatenation fuel text p = .ok result q) :
    ∃ more : List String,
      Passes p (more.flatMap fun text => [.plus, .quoted text]) q ∧ more.foldl (· ++ ·) text = result := by
  induction fuel generalizing text p with
  | zero =>
    obtain ⟨rfl, rfl⟩ := pure_ok.1 h
    exact ⟨[], .refl p, rfl⟩
  | succ fuel ih =>
    rw [concatenation_succ] at h
    obtain ⟨found, p₁, h₁, h⟩ := bind_ok.1 h
    rcases concatenationRound_sound h₁ with ⟨more, hp, rfl⟩ | ⟨rfl, rfl, -⟩
    · obtain ⟨rest, hr, rfl⟩ := ih h
      exact ⟨more :: rest, hp.trans hr, rfl⟩
    · obtain ⟨rfl, rfl⟩ := pure_ok.1 h
      exact ⟨[], .refl p₁, rfl⟩

theorem ident_sound {i : Ident} (h : ident p = .ok i q) : ∃ id : Id, Passes p id.tokens q ∧ id.ident = i := by
  unfold ident at h
  rw [bind_token] at h
  -- The token in hand is named, so that it is the same in what is passed and in what is left to show.
  generalize ht : p.token = t at h
  split at h
  · obtain ⟨_, p₁, h₁, h⟩ := bind_ok.1 h
    obtain ⟨rfl, rfl⟩ := pure_ok.1 h
    exact ⟨.word _, passes_of_advance h₁ ht (by simp), rfl⟩
  · obtain ⟨_, p₁, h₁, h⟩ := bind_ok.1 h
    obtain ⟨rfl, rfl⟩ := pure_ok.1 h
    exact ⟨.numeral _, passes_of_advance h₁ ht (by simp), rfl⟩
  · obtain ⟨_, p₁, h₁, h⟩ := bind_ok.1 h
    obtain ⟨rfl, rfl⟩ := pure_ok.1 h
    exact ⟨.html _, passes_of_advance h₁ ht (by simp), rfl⟩
  · obtain ⟨_, p₁, h₁, h⟩ := bind_ok.1 h
    rw [bind_fuel] at h
    obtain ⟨text, p₂, h₂, h⟩ := bind_ok.1 h
    obtain ⟨rfl, rfl⟩ := pure_ok.1 h
    obtain ⟨more, hm, rfl⟩ := concatenation_sound h₂
    have hfirst := passes_of_advance h₁ ht (by simp)
    exact ⟨.strings _ more, hfirst.cons hm, rfl⟩
  · exact absurd h unexpected_ne_ok

/-- The token in front of an ID tells whether it names a compass point. -/
theorem compassOf?_token {id : Id} (h : Passes p id.tokens q) : compassOf? p.token = id.compass? := by
  cases id <;> rw [Parser.token_of_ahead h.ahead] <;> rfl

theorem name_sound {text : String} (h : name p = .ok text q) :
    ∃ id : Option Id, Passes p (nameTokens id) q ∧ nameText id = text := by
  unfold name at h
  rw [bind_token] at h
  split at h
  · obtain ⟨i, p₁, h₁, h⟩ := bind_ok.1 h
    obtain ⟨rfl, rfl⟩ := pure_ok.1 h
    obtain ⟨id, hp, rfl⟩ := ident_sound h₁
    exact ⟨some id, hp, rfl⟩
  · obtain ⟨rfl, rfl⟩ := pure_ok.1 h
    exact ⟨none, .refl p, rfl⟩

theorem value_sound {v : AttrValue} (h : value p = .ok v q) :
    ∃ id : Id, Passes p id.tokens q ∧ id.ident.value = v := by
  unfold value at h
  rw [bind_token] at h
  split at h
  · obtain ⟨i, p₁, h₁, h⟩ := bind_ok.1 h
    obtain ⟨rfl, rfl⟩ := pure_ok.1 h
    obtain ⟨id, hp, rfl⟩ := ident_sound h₁
    exact ⟨id, hp, rfl⟩
  · exact absurd h unexpected_ne_ok

/-! ## Endpoints -/

theorem token_of_compassOf? {t : Token} {compass : Compass} (h : compassOf? t = some compass) :
    t = .identifier compass.name := by
  unfold compassOf? at h
  split at h
  · rename_i name
    have := List.find?_some h
    rw [beq_iff_eq] at this
    rw [this]
  · cases h

theorem endpoint_sound {node : String} {result : Endpoint} (h : endpoint node p = .ok result q) :
    ∃ port : Port, Passes p port.tokens q ∧ port.endpoint node = result := by
  unfold endpoint at h
  rw [bind_token] at h
  split at h
  · rename_i hc
    obtain ⟨_, p₁, h₁, h⟩ := bind_ok.1 h
    rw [bind_token] at h
    obtain ⟨i, p₂, h₂, h⟩ := bind_ok.1 h
    obtain ⟨id, hid, rfl⟩ := ident_sound h₂
    rw [bind_token, compassOf?_token hid] at h
    have hcolon := passes_of_advance h₁ hc (by simp)
    split at h
    · rename_i hc'
      obtain ⟨_, p₃, h₃, h⟩ := bind_ok.1 h
      rw [bind_token] at h
      generalize hs : compassOf? p₃.token = side at h
      cases side with
      | some compass =>
        obtain ⟨_, p₄, h₄, h⟩ := bind_ok.1 h
        obtain ⟨rfl, rfl⟩ := pure_ok.1 h
        have hcolon' := passes_of_advance h₃ hc' (by simp)
        have hcompass := passes_of_advance h₄ (token_of_compassOf? hs) (by simp)
        exact ⟨.sided id compass, hcolon.cons (hid.trans (hcolon'.cons hcompass)), rfl⟩
      | none => exact absurd h unexpected_ne_ok
    · generalize hs : id.compass? = alone at h
      cases alone with
      | some compass =>
        obtain ⟨rfl, rfl⟩ := pure_ok.1 h
        exact ⟨.alone id, hcolon.cons hid, by rw [Port.endpoint, hs]⟩
      | none =>
        obtain ⟨rfl, rfl⟩ := pure_ok.1 h
        exact ⟨.alone id, hcolon.cons hid, by rw [Port.endpoint, hs]; rfl⟩
  · obtain ⟨rfl, rfl⟩ := pure_ok.1 h
    exact ⟨.absent, .refl p, rfl⟩

/-! ## Attribute lists -/

theorem assignment_sound {attrs result : Attributes} (h : assignment attrs p = .ok result q) :
    ∃ a : Assignment, Passes p a.tokens q ∧ a.name.CanName ∧ attrs.insert a.attribute = result := by
  unfold assignment at h
  rw [bind_get] at h
  dsimp only at h
  obtain ⟨i, p₁, h₁, h⟩ := bind_ok.1 h
  obtain ⟨_, p₂, h₂, h⟩ := bind_ok.1 h
  obtain ⟨v, p₃, h₃, h⟩ := bind_ok.1 h
  obtain ⟨attrs', p₄, h₄, h⟩ := bind_ok.1 h
  obtain ⟨name, hn, rfl⟩ := ident_sound h₁
  obtain ⟨value, hv, rfl⟩ := value_sound h₃
  have heq := passes_of_expect h₂ (by simp)
  obtain ⟨hset, rfl⟩ := ofEdit_ok.1 h₄
  obtain ⟨hc, hq, -, rfl⟩ := Attributes.set_eq_ok.1 hset
  have key := hn.trans (heq.cons hv)
  rw [bind_token, bind_token] at h
  split at h
  · rename_i hs
    obtain ⟨_, p₅, h₅, h⟩ := bind_ok.1 h
    obtain ⟨rfl, rfl⟩ := pure_ok.1 h
    rcases hs with hs | hs
    · have hsep := passes_of_advance h₅ hs (by simp)
      exact ⟨⟨name, value, .semicolon⟩, by simpa [Assignment.tokens, Separator.tokens] using key.trans hsep,
        ⟨hc, hq⟩, rfl⟩
    · have hsep := passes_of_advance h₅ hs (by simp)
      exact ⟨⟨name, value, .comma⟩, by simpa [Assignment.tokens, Separator.tokens] using key.trans hsep,
        ⟨hc, hq⟩, rfl⟩
  · obtain ⟨rfl, rfl⟩ := pure_ok.1 h
    exact ⟨⟨name, value, .absent⟩, by simpa [Assignment.tokens, Separator.tokens] using key, ⟨hc, hq⟩, rfl⟩

theorem Assignment.tokens_ne_nil (a : Assignment) : a.tokens ≠ [] := by simp [Assignment.tokens]

theorem attributeListRound_sound {attrs : Attributes} {result : Attributes ⊕ Attributes}
    (h : attributeListRound attrs p = .ok result q) :
    (∃ a : Assignment, Passes p a.tokens q ∧ a.name.CanName ∧ result = .inl (attrs.insert a.attribute)) ∨
      (Passes p [.closeBracket, .openBracket] q ∧ result = .inl attrs) ∨
      (Passes p [.closeBracket] q ∧ result = .inr attrs) := by
  unfold attributeListRound at h
  rw [bind_token] at h
  split at h
  · rename_i hc
    obtain ⟨_, p₁, h₁, h⟩ := bind_ok.1 h
    have hclose := passes_of_advance h₁ hc (by simp)
    rw [bind_token] at h
    split at h
    · rename_i ho
      obtain ⟨_, p₂, h₂, h⟩ := bind_ok.1 h
      obtain ⟨rfl, rfl⟩ := pure_ok.1 h
      exact Or.inr (Or.inl ⟨hclose.cons (passes_of_advance h₂ ho (by simp)), rfl⟩)
    · obtain ⟨rfl, rfl⟩ := pure_ok.1 h
      exact Or.inr (Or.inr ⟨hclose, rfl⟩)
  · rw [bind_token] at h
    split at h
    · obtain ⟨attrs', p₁, h₁, h⟩ := bind_ok.1 h
      obtain ⟨rfl, rfl⟩ := pure_ok.1 h
      obtain ⟨a, ha, hn, rfl⟩ := assignment_sound h₁
      exact Or.inl ⟨a, ha, hn, rfl⟩
    · exact absurd h unexpected_ne_ok

/-- Inside of the first brackets, of which some assignments may be passed already. -/
theorem attributeList_sound {fuel : Nat} {attrs result : Attributes} (hf : p.ahead.length ≤ fuel)
    (h : attributeList fuel attrs p = .ok result q) :
    ∃ (first : List Assignment) (more : List (List Assignment)),
      Passes p (first.flatMap Assignment.tokens ++ .closeBracket :: attrTokens more) q ∧
        AttrsCanName (first :: more) ∧
        (first :: more).flatten.foldl (fun attrs a => attrs.insert a.attribute) attrs = result := by
  induction fuel generalizing attrs p with
  | zero => simp [Parser.ahead] at hf
  | succ fuel ih =>
    rw [attributeList_succ] at h
    obtain ⟨found, p₁, h₁, h⟩ := bind_ok.1 h
    rcases attributeListRound_sound h₁ with ⟨a, ha, hc, rfl⟩ | ⟨hp, rfl⟩ | ⟨hp, rfl⟩
    · have hl := ha.length_ahead
      have := List.length_pos_iff.2 a.tokens_ne_nil
      obtain ⟨first, more, hp, hn, rfl⟩ := ih (by omega) h
      refine ⟨a :: first, more, by simpa using ha.trans hp, ?_, rfl⟩
      intro b hb
      rw [List.flatten_cons, List.cons_append, List.mem_cons] at hb
      rcases hb with rfl | hb
      · exact hc
      · exact hn b (by rwa [List.flatten_cons])
    · have hl := hp.length_ahead
      simp only [List.length_cons, List.length_nil] at hl
      obtain ⟨first, more, hp', hn, rfl⟩ := ih (by omega) h
      refine ⟨[], first :: more, ?_, by simpa [AttrsCanName] using hn, by simp⟩
      simpa [attrTokens, bracketTokens] using hp.trans hp'
    · obtain ⟨rfl, rfl⟩ := pure_ok.1 h
      exact ⟨[], [], hp, by simp [AttrsCanName], rfl⟩

theorem attributes_sound {result : Attributes} (h : attributes p = .ok result q) :
    ∃ brackets : List (List Assignment),
      Passes p (attrTokens brackets) q ∧ AttrsCanName brackets ∧ attributesOf brackets = result ∧
        (p.token = .openBracket → brackets ≠ []) := by
  unfold attributes at h
  rw [bind_token] at h
  split at h
  · rename_i ho
    obtain ⟨_, p₁, h₁, h⟩ := bind_ok.1 h
    rw [bind_fuel] at h
    have hopen := passes_of_advance h₁ ho (by simp)
    obtain ⟨first, more, hp, hn, rfl⟩ := attributeList_sound p₁.ahead_length_le h
    refine ⟨first :: more, ?_, hn, rfl, by simp⟩
    simpa [attrTokens, bracketTokens] using hopen.cons hp
  · rename_i ho
    obtain ⟨rfl, rfl⟩ := pure_ok.1 h
    exact ⟨[], .refl p, by simp [AttrsCanName], rfl, fun h => absurd h ho⟩

/-! ## Groups and operands -/

/-- What reads the rest of a body passes its statements and the brace behind them. -/
def ReadsBodies (body : Builder → Parse Builder) : Prop :=
  ∀ {builder result : Builder} {p q : Parser}, body builder p = .ok result q →
    ∃ tree : Body, Passes p (tree.tokens ++ [.closeBrace]) q ∧ tree.run builder = result ∧
      tree.Admissible builder.kind.directed p.depth

variable {body : Builder → Parse Builder} (hbody : ReadsBodies body) {builder : Builder}
include hbody

theorem bracedGroup_sound {name : String} {result : List String × Builder}
    (h : bracedGroup body builder name p = .ok result q) :
    ∃ tree : Body, Passes p (.openBrace :: (tree.tokens ++ [.closeBrace])) q ∧
      (tree.run (builder.openSubgraph name)).closeSubgraph = result ∧
      p.depth < maxNesting ∧ tree.Admissible builder.kind.directed (p.depth + 1) := by
  unfold bracedGroup at h
  rw [bind_token, bind_get] at h
  split at h
  · obtain ⟨_, _, h₁, _⟩ := bind_ok.1 h
    exact absurd h₁ unexpected_ne_ok
  · rename_i hn
    obtain ⟨_, p₁, h₁, h⟩ := bind_ok.1 h
    rw [bind_modify] at h
    obtain ⟨builder', p₂, h₂, h⟩ := bind_ok.1 h
    rw [bind_modify, bind_note] at h
    obtain ⟨rfl, rfl⟩ := pure_ok.1 h
    have hopen := passes_of_expect h₁ (by simp)
    obtain ⟨tree, ht, rfl, ha⟩ := hbody h₂
    have hdepth : p₂.depth = p₁.depth + 1 := ht.depth
    refine ⟨tree, ⟨?_, ?_⟩, rfl, ?_, ?_⟩
    · rw [hopen.ahead]
      exact congrArg _ ht.ahead
    · show p₂.depth - 1 = p.depth
      rw [hdepth, hopen.depth, Nat.add_sub_cancel]
    · exact Nat.lt_of_not_le fun hd => hn ⟨Parser.token_of_ahead hopen.ahead, hd⟩
    · rw [← hopen.depth]
      exact ha

theorem subgraph_sound {result : List String × Builder} (h : subgraph body builder p = .ok result q) :
    ∃ group : Group, Passes p group.tokens q ∧ group.run builder = result ∧
      group.Admissible builder.kind.directed p.depth := by
  unfold subgraph at h
  rw [bind_token] at h
  split at h
  · rename_i hk
    obtain ⟨_, p₁, h₁, h⟩ := bind_ok.1 h
    obtain ⟨name, p₂, h₂, h⟩ := bind_ok.1 h
    rw [bind_token] at h
    have hkeyword := passes_of_advance h₁ hk (by simp)
    obtain ⟨id, hid, rfl⟩ := name_sound h₂
    split at h
    · rename_i hr
      obtain ⟨rfl, rfl⟩ := pure_ok.1 h
      cases id with
      | none => exact absurd rfl hr.2
      | some id =>
        have hne : id.text ≠ "" := fun he => hr.2 (String.isEmpty_iff.2 he)
        exact ⟨.reference id, hkeyword.cons hid, rfl, hne⟩
    · obtain ⟨tree, ht, rfl, hd, ha⟩ := bracedGroup_sound hbody h
      rw [hid.depth, hkeyword.depth] at hd ha
      refine ⟨.braced (.keyword id) tree, hkeyword.cons (hid.trans ht), rfl, hd, ha⟩
  · obtain ⟨tree, ht, rfl, hd, ha⟩ := bracedGroup_sound hbody h
    exact ⟨.braced .absent tree, ht, rfl, hd, ha⟩

theorem operand_sound {result : DotLang.Operand × Builder} (h : operand body builder p = .ok result q) :
    ∃ operand : Operand, Passes p operand.tokens q ∧ operand.run builder = result ∧
      operand.Admissible builder.kind.directed p.depth := by
  have hgroup (h : (subgraph body builder >>= fun found =>
      pure (DotLang.Operand.group found.1, found.2)) p = .ok result q) :
      ∃ operand : Operand, Passes p operand.tokens q ∧ operand.run builder = result ∧
        operand.Admissible builder.kind.directed p.depth := by
    obtain ⟨⟨names, builder'⟩, p₁, h₁, h⟩ := bind_ok.1 h
    obtain ⟨rfl, rfl⟩ := pure_ok.1 h
    obtain ⟨group, hg, hr, ha⟩ := subgraph_sound hbody h₁
    exact ⟨.group group, hg, by rw [Operand.run, hr], ha⟩
  unfold operand at h
  rw [bind_token] at h
  generalize p.token = t at h
  split at h
  · exact hgroup h
  · exact hgroup h
  · split at h
    · obtain ⟨i, p₁, h₁, h⟩ := bind_ok.1 h
      obtain ⟨e, p₂, h₂, h⟩ := bind_ok.1 h
      obtain ⟨rfl, rfl⟩ := pure_ok.1 h
      obtain ⟨id, hid, rfl⟩ := ident_sound h₁
      obtain ⟨port, hp, rfl⟩ := endpoint_sound h₂
      exact ⟨.node ⟨id, port⟩, hid.trans hp, rfl, trivial⟩
    · exact absurd h unexpected_ne_ok

/-! ## Edges -/

theorem chainRound_sound {chain : List DotLang.Operand}
    {result : (Builder × List DotLang.Operand) ⊕ (List DotLang.Operand × Builder)}
    (h : chainRound body (builder, chain) p = .ok result q) :
    (∃ operand : Operand, Passes p (.edgeOp builder.kind.directed :: operand.tokens) q ∧
        result = .inl ((operand.run builder).2, chain ++ [(operand.run builder).1]) ∧
        operand.Admissible builder.kind.directed p.depth) ∨
      (q = p ∧ result = .inr (chain, builder) ∧ p.token.isEdgeOp = false) := by
  unfold chainRound at h
  rw [bind_token] at h
  split at h
  · dsimp only at h
    rw [bind_token] at h
    split at h
    · rw [bind_get] at h
      obtain ⟨_, _, h₁, _⟩ := bind_ok.1 h
      exact absurd h₁ throw_ne_ok
    · rename_i ht
      rw [Decidable.not_not] at ht
      obtain ⟨_, p₁, h₁, h⟩ := bind_ok.1 h
      obtain ⟨⟨next, builder'⟩, p₂, h₂, h⟩ := bind_ok.1 h
      obtain ⟨rfl, rfl⟩ := pure_ok.1 h
      have hop := passes_of_advance h₁ ht (Token.edgeOp_ne_eof _)
      obtain ⟨operand, ho, hr, ha⟩ := operand_sound hbody h₂
      rw [hop.depth] at ha
      exact Or.inl ⟨operand, hop.cons ho, by rw [hr], ha⟩
  · rename_i ht
    obtain ⟨rfl, rfl⟩ := pure_ok.1 h
    exact Or.inr ⟨rfl, rfl, Bool.eq_false_iff.2 ht⟩

theorem chainFrom_sound {fuel : Nat} {chain : List DotLang.Operand} {result : List DotLang.Operand × Builder}
    (h : chainFrom body fuel builder chain p = .ok result q) :
    ∃ more : Chain, Passes p more.tokens q ∧ (chain ++ (more.run builder).1, (more.run builder).2) = result ∧
      more.Admissible builder.kind.directed p.depth ∧ (p.token.isEdgeOp = true → 0 < fuel → more ≠ .nil) := by
  induction fuel generalizing builder chain p with
  | zero =>
    obtain ⟨rfl, rfl⟩ := pure_ok.1 h
    exact ⟨.nil, .refl p, by simp [Chain.run], trivial, fun _ hf => absurd hf (Nat.lt_irrefl 0)⟩
  | succ fuel ih =>
    rw [show chainFrom body (fuel + 1) builder chain = _ from chainFrom_succ body fuel (builder, chain)] at h
    obtain ⟨found, p₁, h₁, h⟩ := bind_ok.1 h
    rcases chainRound_sound hbody h₁ with ⟨operand, hp, rfl, ha⟩ | ⟨rfl, rfl, ht⟩
    · obtain ⟨more, hm, rfl, ha', -⟩ := ih h
      rw [operand.kind_run, hp.depth] at ha'
      refine ⟨.cons builder.kind.directed operand more, hp.trans hm, ?_, ⟨rfl, ha, ha'⟩, fun _ _ => nofun⟩
      rw [Chain.run, List.append_assoc]
      rfl
    · obtain ⟨rfl, rfl⟩ := pure_ok.1 h
      refine ⟨.nil, .refl p₁, by simp [Chain.run], trivial, fun he => ?_⟩
      rw [ht] at he
      cases he

theorem edgeStatement_sound {first : DotLang.Operand} {result : Builder} (ht : p.token.isEdgeOp = true)
    (h : edgeStatement body builder first p = .ok result q) :
    ∃ (directed : Bool) (second : Operand) (more : Chain) (attrs : List (List Assignment)),
      Passes p (.edgeOp directed :: (second.tokens ++ (more.tokens ++ attrTokens attrs))) q ∧
        (more.run (second.run builder).2).2.connect
          (first :: (second.run builder).1 :: (more.run (second.run builder).2).1) (attributesOf attrs) = result ∧
        directed = builder.kind.directed ∧ second.Admissible builder.kind.directed p.depth ∧
        more.Admissible builder.kind.directed p.depth ∧ AttrsCanName attrs := by
  unfold edgeStatement at h
  rw [bind_fuel] at h
  obtain ⟨⟨chain, builder'⟩, p₁, h₁, h⟩ := bind_ok.1 h
  obtain ⟨attrs, p₂, h₂, h⟩ := bind_ok.1 h
  obtain ⟨rfl, rfl⟩ := pure_ok.1 h
  obtain ⟨brackets, hb, hn, rfl, -⟩ := attributes_sound h₂
  obtain ⟨more, hm, hr, ha, hne⟩ := chainFrom_sound hbody h₁
  cases more with
  | nil => exact absurd rfl (hne ht (Nat.succ_pos _))
  | cons directed second more =>
    obtain ⟨rfl, rfl⟩ := Prod.mk.inj hr
    refine ⟨directed, second, more, brackets, ?_, rfl, ha.1, ha.2.1, ha.2.2, hn⟩
    simpa [Chain.tokens] using hm.trans hb

/-! ## Statements -/

omit hbody in
theorem defaultsStatement_sound (category : Category) {result : Builder} (ht : p.token = categoryToken category)
    (h : defaultsStatement builder category p = .ok result q) :
    ∃ stmt : Stmt, Passes p stmt.tokens q ∧ stmt.run builder = result ∧
      stmt.Admissible builder.kind.directed p.depth := by
  unfold defaultsStatement at h
  obtain ⟨_, p₁, h₁, h⟩ := bind_ok.1 h
  rw [bind_token] at h
  split at h
  · rename_i hopen
    obtain ⟨attrs, p₂, h₂, h⟩ := bind_ok.1 h
    obtain ⟨rfl, rfl⟩ := pure_ok.1 h
    obtain ⟨brackets, hb, hn, rfl, hne⟩ := attributes_sound h₂
    have hkeyword := passes_of_advance h₁ ht (by cases category <;> simp [categoryToken])
    cases brackets with
    | nil => exact absurd rfl (hne hopen)
    | cons first more => exact ⟨.defaults category first more, hkeyword.cons hb, rfl, hn⟩
  · exact absurd h unexpected_ne_ok

theorem idStatement_sound {result : Builder} (h : idStatement body builder p = .ok result q) :
    ∃ stmt : Stmt, Passes p stmt.tokens q ∧ stmt.run builder = result ∧
      stmt.Admissible builder.kind.directed p.depth := by
  unfold idStatement at h
  rw [bind_get] at h
  obtain ⟨i, p₁, h₁, h⟩ := bind_ok.1 h
  obtain ⟨id, hid, rfl⟩ := ident_sound h₁
  rw [bind_token] at h
  split at h
  · rename_i heq
    obtain ⟨_, p₂, h₂, h⟩ := bind_ok.1 h
    obtain ⟨v, p₃, h₃, h⟩ := bind_ok.1 h
    obtain ⟨value, hv, rfl⟩ := value_sound h₃
    have hequal := passes_of_advance h₂ heq (by simp)
    obtain ⟨hset, rfl⟩ := ofEdit_ok.1 h
    obtain ⟨hc, hq, rfl⟩ := Builder.setAttribute_eq_ok.1 hset
    exact ⟨.assign id value, hid.trans (hequal.cons hv), rfl, ⟨hc, hq.1⟩⟩
  · obtain ⟨e, p₂, h₂, h⟩ := bind_ok.1 h
    obtain ⟨port, hp, rfl⟩ := endpoint_sound h₂
    have hnode : Passes p (NodeId.tokens ⟨id, port⟩) p₂ := hid.trans hp
    rw [bind_token] at h
    split at h
    · rename_i ht
      obtain ⟨directed, second, more, attrs, he, hr, hd, hs, hm, hn⟩ := edgeStatement_sound hbody ht h
      rw [hnode.depth] at hs hm
      exact ⟨.edge (.node ⟨id, port⟩) directed second more attrs, hnode.trans he, hr, trivial, hd, hs, hm, hn⟩
    · obtain ⟨attrs, p₃, h₃, h⟩ := bind_ok.1 h
      obtain ⟨rfl, rfl⟩ := pure_ok.1 h
      obtain ⟨brackets, hb, hn, rfl, -⟩ := attributes_sound h₃
      exact ⟨.node ⟨id, port⟩ brackets, hnode.trans hb, rfl, hn⟩

theorem groupStatement_sound {result : Builder} (h : groupStatement body builder p = .ok result q) :
    ∃ stmt : Stmt, Passes p stmt.tokens q ∧ stmt.run builder = result ∧
      stmt.Admissible builder.kind.directed p.depth := by
  unfold groupStatement at h
  obtain ⟨⟨names, builder'⟩, p₁, h₁, h⟩ := bind_ok.1 h
  obtain ⟨group, hg, hr, ha⟩ := subgraph_sound hbody h₁
  dsimp only at h
  rw [bind_token] at h
  split at h
  · rename_i ht
    obtain ⟨directed, second, more, attrs, he, hrun, hd, hs, hm, hn⟩ := edgeStatement_sound hbody ht h
    have hk : builder'.kind = builder.kind := by rw [← group.kind_run builder, hr]
    rw [hg.depth, hk] at hs hm
    rw [hk] at hd
    refine ⟨.edge (.group group) directed second more attrs, hg.trans he, ?_, ha, hd, hs, hm, hn⟩
    rw [Stmt.run, Operand.run, hr]
    exact hrun
  · obtain ⟨rfl, rfl⟩ := pure_ok.1 h
    exact ⟨.group group, hg, by rw [Stmt.run, hr], ha⟩

theorem statement_sound {result : Builder} (h : statement body builder p = .ok result q) :
    ∃ stmt : Stmt, Passes p stmt.tokens q ∧ stmt.run builder = result ∧
      stmt.Admissible builder.kind.directed p.depth := by
  unfold statement at h
  rw [bind_token] at h
  generalize ht : p.token = t at h
  split at h
  · exact defaultsStatement_sound .graph ht h
  · exact defaultsStatement_sound .node ht h
  · exact defaultsStatement_sound .edge ht h
  · exact groupStatement_sound hbody h
  · exact groupStatement_sound hbody h
  · split at h
    · exact idStatement_sound hbody h
    · exact absurd h unexpected_ne_ok

end

/-! ## Bodies and documents -/

theorem bodyRound_sound {body : Builder → Parse Builder} (hbody : ReadsBodies body) {builder : Builder}
    {result : Builder ⊕ Builder} {p q : Parser} (h : bodyRound body builder p = .ok result q) :
    (Passes p [.closeBrace] q ∧ result = .inr builder) ∨
      ∃ (stmt : Stmt) (semicolon : Bool), Passes p (stmt.tokens ++ semicolonTokens semicolon) q ∧
        result = .inl (stmt.run builder) ∧ stmt.Admissible builder.kind.directed p.depth := by
  unfold bodyRound at h
  rw [bind_token] at h
  generalize ht : p.token = t at h
  split at h
  · obtain ⟨_, p₁, h₁, h⟩ := bind_ok.1 h
    obtain ⟨rfl, rfl⟩ := pure_ok.1 h
    exact Or.inl ⟨passes_of_advance h₁ ht (by simp), rfl⟩
  · exact absurd h unexpected_ne_ok
  · right
    obtain ⟨builder', p₁, h₁, h⟩ := bind_ok.1 h
    obtain ⟨stmt, hs, rfl, ha⟩ := statement_sound hbody h₁
    rw [bind_token] at h
    split at h
    · rename_i hsemi
      obtain ⟨_, p₂, h₂, h⟩ := bind_ok.1 h
      obtain ⟨rfl, rfl⟩ := pure_ok.1 h
      exact ⟨stmt, true, hs.trans (passes_of_advance h₂ hsemi (by simp)), rfl, ha⟩
    · obtain ⟨rfl, rfl⟩ := pure_ok.1 h
      exact ⟨stmt, false, hs.trans (.refl p₁), rfl, ha⟩

/-- One round, and then what reads the rest, read a body together. -/
theorem ReadsBodies.round {body rest : Builder → Parse Builder} (hbody : ReadsBodies body) (hrest : ReadsBodies rest) :
    ReadsBodies fun builder => bodyRound body builder >>= Sum.elim rest pure := by
  intro builder result p q h
  obtain ⟨found, p₁, h₁, h⟩ := bind_ok.1 h
  rcases bodyRound_sound hbody h₁ with ⟨hp, rfl⟩ | ⟨stmt, semicolon, hp, rfl, ha⟩
  · obtain ⟨rfl, rfl⟩ := pure_ok.1 h
    exact ⟨.nil, hp, rfl, trivial⟩
  · obtain ⟨tree, ht, rfl, ha'⟩ := hrest h
    rw [stmt.kind_run, hp.depth] at ha'
    refine ⟨.cons stmt semicolon tree, ?_, rfl, ha, ha'⟩
    simpa [Body.tokens] using hp.trans ht

theorem body_sound (fuel : Nat) : ReadsBodies (body fuel) := by
  induction fuel with
  | zero => exact fun h => absurd h unexpected_ne_ok
  | succ fuel ih =>
    intro builder result p q h
    rw [body_succ] at h
    exact ih.round ih h

theorem directedness_sound {p q : Parser} {directed : Bool} (h : directedness p = .ok directed q) :
    Passes p [.keyword (if directed then .digraph else .graph)] q := by
  unfold directedness at h
  rw [bind_token] at h
  generalize ht : p.token = t at h
  split at h
  · obtain ⟨_, p₁, h₁, h⟩ := bind_ok.1 h
    obtain ⟨rfl, rfl⟩ := pure_ok.1 h
    exact passes_of_advance h₁ ht (by simp)
  · obtain ⟨_, p₁, h₁, h⟩ := bind_ok.1 h
    obtain ⟨rfl, rfl⟩ := pure_ok.1 h
    exact passes_of_advance h₁ ht (by simp)
  · exact absurd h unexpected_ne_ok

theorem graph_sound {p q : Parser} {g : Graph} (h : graph p = .ok g q) :
    ∃ doc : Document, Passes p doc.tokens q ∧ doc.graph = g ∧ doc.body.Admissible doc.directed p.depth := by
  -- Behind the keyword `strict`, or without it.
  have key (strict : Bool) {p₁ : Parser} (hp : Passes p (if strict then [.keyword .strict] else []) p₁)
      (h : (do
        let directed ← directedness
        let name ← name
        expect .openBrace .openBrace
        let builder ← body (← fuel) (Builder.new name ⟨directed, strict⟩).enterScope
        return builder.leaveScope.graph) p₁ = .ok g q) :
      ∃ doc : Document, Passes p doc.tokens q ∧ doc.graph = g ∧ doc.body.Admissible doc.directed p.depth := by
    obtain ⟨directed, p₂, h₂, h⟩ := bind_ok.1 h
    obtain ⟨name, p₃, h₃, h⟩ := bind_ok.1 h
    obtain ⟨_, p₄, h₄, h⟩ := bind_ok.1 h
    rw [bind_fuel] at h
    obtain ⟨builder, p₅, h₅, h⟩ := bind_ok.1 h
    obtain ⟨rfl, rfl⟩ := pure_ok.1 h
    have hkind := directedness_sound h₂
    obtain ⟨id, hid, rfl⟩ := name_sound h₃
    have hopen := passes_of_expect h₄ (by simp)
    obtain ⟨tree, ht, rfl, ha⟩ := body_sound _ h₅
    rw [hopen.depth, hid.depth, hkind.depth, hp.depth] at ha
    exact ⟨⟨strict, directed, id, tree⟩, hp.trans (hkind.cons (hid.trans (hopen.cons ht))), rfl, ha⟩
  unfold graph at h
  rw [bind_token] at h
  dsimp only at h
  split at h
  · rename_i hs
    obtain ⟨_, p₁, h₁, h⟩ := bind_ok.1 h
    rw [decide_eq_true hs] at h
    exact key true (passes_of_advance h₁ hs (by simp)) h
  · rename_i hs
    rw [decide_eq_false hs] at h
    exact key false (.refl p) h

/-- What a parser accepts is the tokens of a derivation, in which bodies are nested as deep as those allow that it
takes to be open already. -/
theorem process_sound {p q : Parser} {g : Graph} (h : p.process = (.ok g, q)) :
    ∃ doc : Document, doc.body.Admissible doc.directed p.depth ∧ doc.graph = g ∧
      p.lexer.tokens = (doc.tokens ++ [Token.eof]).map .ok := by
  unfold Parser.process at h
  rw [run_ok] at h
  unfold document at h
  obtain ⟨_, p₁, h₁, h⟩ := bind_ok.1 h
  obtain ⟨g', p₂, h₂, h⟩ := bind_ok.1 h
  dsimp only at h
  rw [bind_token] at h
  split at h
  · obtain ⟨_, _, h₃, _⟩ := bind_ok.1 h
    exact absurd h₃ unexpected_ne_ok
  · rename_i ht
    rw [Decidable.not_not] at ht
    rw [bind_note] at h
    obtain ⟨rfl, -⟩ := pure_ok.1 h
    obtain ⟨doc, hd, rfl, ha⟩ := graph_sound h₂
    rw [depth_of_advance h₁] at ha
    refine ⟨doc, ha, rfl, ?_⟩
    rw [← ahead_of_advance h₁, hd.ahead, List.map_append]
    unfold Parser.ahead
    rw [if_pos ht, ht]
    rfl

/-- A text that is accepted has a derivation, and describes the graph that the derivation says. -/
theorem parse_sound {text : String} {g : Graph} (h : parse text = .ok g) :
    ∃ doc : Document, doc.Admissible ∧ doc.graph = g ∧
      (Lexer.ofString text).tokens = (doc.tokens ++ [Token.eof]).map .ok :=
  process_sound (Prod.ext h rfl : (Parser.ofString text).process = (.ok g, (Parser.ofString text).process.2))

end DotLang.Grammar
