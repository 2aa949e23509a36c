import DotLang.Proofs.Grammar.Passing
import DotLang.Proofs.Grammar.Regrouping
import DotLang.Proofs.Grammar.Running

/-!
# What has a derivation is accepted

A parser that has the tokens of a greedy tree ahead, and behind them one that does not belong to it, passes
them and does what the tree says. The leaves come first; the statements of a body are one induction on the
tree, in which the tokens that are left bound the rounds of each loop.
-/

namespace DotLang

/-! ## Tokens that do not go on with what is before -/

namespace Token

def endsId (t : Token) : Bool := t != plus

def endsPort (t : Token) : Bool := t != plus && t != colon

def endsNode (t : Token) : Bool := t != plus && t != colon && t != equal

def endsAssignment (t : Token) : Bool := t != plus && t != semicolon && t != comma

/-- Behind the brackets of a statement. -/
def endsAttrs (t : Token) : Bool := t != openBracket

def endsChain (t : Token) : Bool := t.endsNode && !t.isEdgeOp

def endsStmt (t : Token) : Bool := t.endsChain && t.endsAttrs

def endsReference (t : Token) : Bool := t != openBrace

theorem endsId_of_endsNode (t : Token) (h : t.endsNode = true) : t.endsId = true := by
  unfold endsNode at h
  simp_all [endsId]

theorem endsId_of_endsPort (t : Token) (h : t.endsPort = true) : t.endsId = true :=
  (Bool.and_eq_true_iff.1 h).1

theorem endsPort_of_endsNode (t : Token) (h : t.endsNode = true) : t.endsPort = true :=
  (Bool.and_eq_true_iff.1 h).1

theorem endsId_of_endsAssignment (t : Token) (h : t.endsAssignment = true) : t.endsId = true := by
  unfold endsAssignment at h
  simp_all [endsId]

theorem endsNode_of_endsChain (t : Token) (h : t.endsChain = true) : t.endsNode = true :=
  (Bool.and_eq_true_iff.1 h).1

theorem endsChain_of_endsStmt (t : Token) (h : t.endsStmt = true) : t.endsChain = true :=
  (Bool.and_eq_true_iff.1 h).1

theorem endsAttrs_of_endsStmt (t : Token) (h : t.endsStmt = true) : t.endsAttrs = true :=
  (Bool.and_eq_true_iff.1 h).2

end Token

namespace Grammar
open Parse

/-! ## IDs -/

theorem compassOf?_name (compass : Compass) : compassOf? (.identifier compass.name) = some compass := by
  cases compass <;> rfl

/-- An ID has a first token, with which no statement but one with an ID begins. -/
theorem Id.exists_token (id : Id) : ∃ t ts, id.tokens = t :: ts ∧ t.isId = true ∧ compassOf? t = id.compass? := by
  cases id with
  | word name => exact ⟨_, _, rfl, rfl, rfl⟩
  | numeral text => exact ⟨_, _, rfl, rfl, rfl⟩
  | html markup => exact ⟨_, _, rfl, rfl, rfl⟩
  | strings first more => exact ⟨_, _, rfl, rfl, rfl⟩

section
variable {p : Parser} {rest : List (Except Error Token)}

theorem concatenation_complete (more : List String) : ∀ {fuel : Nat} {text : String} {p : Parser},
    p.ahead = (more.flatMap fun text => [Token.plus, .quoted text]).map .ok ++ rest → p.ahead.length ≤ fuel →
    Follows Token.endsId rest → Yields (concatenation fuel text) p (more.foldl (· ++ ·) text) rest := by
  induction more with
  | nil =>
    intro fuel text p h hl hf
    cases fuel with
    | zero => exact .pure h
    | succ fuel =>
      have ht : p.token.endsId = true := (h ▸ hf : Follows _ p.ahead).token
      refine .token rfl ?_
      rw [if_neg (bne_iff_ne.1 ht)]
      exact .pure h
  | cons text more ih =>
    intro fuel text' p h hl hf
    cases fuel with
    | zero => simp [Parser.ahead] at hl
    | succ fuel =>
      replace h : p.ahead = .ok Token.plus :: .ok (Token.quoted text) ::
          ((more.flatMap fun text => [Token.plus, .quoted text]).map .ok ++ rest) := h
      refine .token (Parser.token_of_ahead h) ?_
      rw [if_pos rfl]
      refine (Yields.advance h (by simp) (follows_cons (C := fun _ => true) rfl _)).bind fun q hq _ => ?_
      refine .token (Parser.token_of_ahead hq) ?_
      have hlast : Follows (fun _ => true)
          ((more.flatMap fun text => [Token.plus, .quoted text]).map Except.ok ++ rest) :=
        follows_append (fun _ _ => rfl) fun _ => hf.mono fun _ _ => rfl
      refine (Yields.advance hq (by simp) hlast).bind fun q' hq' _ => ih hq' ?_ hf
      rw [h, List.length_cons, List.length_cons] at hl
      rw [hq']
      omega

theorem ident_complete (id : Id) (h : p.ahead = id.tokens.map .ok ++ rest) (hf : Follows Token.endsId rest) :
    Yields ident p id.ident rest := by
  cases id with
  | word name => exact .token (Parser.token_of_ahead h) ((Yields.advance h (by simp) hf).bind fun q hq _ => .pure hq)
  | numeral text => exact .token (Parser.token_of_ahead h) ((Yields.advance h (by simp) hf).bind fun q hq _ => .pure hq)
  | html markup => exact .token (Parser.token_of_ahead h) ((Yields.advance h (by simp) hf).bind fun q hq _ => .pure hq)
  | strings first more =>
    have hmore : Follows (fun _ => true)
        ((more.flatMap fun text => [Token.plus, .quoted text]).map Except.ok ++ rest) :=
      follows_append (fun _ _ => rfl) fun _ => hf.mono fun _ _ => rfl
    refine .token (Parser.token_of_ahead h) ((Yields.advance h (by simp) hmore).bind fun q hq _ => ?_)
    have hc : Yields (concatenation (q.lexer.rest.length + 2) first) q (more.foldl (· ++ ·) first) rest :=
      concatenation_complete more hq q.ahead_length_le hf
    exact .fuel (hc.bind fun q' hq' _ => .pure hq')

theorem isId_token {id : Id} (h : p.ahead = id.tokens.map .ok ++ rest) : p.token.isId = true := by
  obtain ⟨t, ts, ht, hid, -⟩ := id.exists_token
  rw [ht] at h
  rw [Parser.token_of_ahead h, hid]

theorem name_complete (id : Option Id) (h : p.ahead = (nameTokens id).map .ok ++ rest)
    (hf : Follows Token.endsId rest) (hn : id = none → Follows (fun t => !t.isId) rest) :
    Yields name p (nameText id) rest := by
  cases id with
  | none =>
    replace h : p.ahead = rest := h
    have ht : (!p.token.isId) = true := (h ▸ hn rfl : Follows _ p.ahead).token
    refine .token rfl ?_
    rw [if_neg (by simpa using ht)]
    exact .pure h
  | some id =>
    refine .token rfl ?_
    rw [if_pos (isId_token h)]
    exact (ident_complete id h hf).bind fun q hq _ => .pure hq

theorem value_complete (id : Id) (h : p.ahead = id.tokens.map .ok ++ rest) (hf : Follows Token.endsId rest) :
    Yields value p id.ident.value rest := by
  refine .token rfl ?_
  rw [if_pos (isId_token h)]
  exact (ident_complete id h hf).bind fun q hq _ => .pure hq

/-! ## Endpoints -/

theorem endpoint_complete (node : String) (port : Port) (h : p.ahead = port.tokens.map .ok ++ rest)
    (hf : Follows Token.endsPort rest) : Yields (endpoint node) p (port.endpoint node) rest := by
  have hid := hf.mono Token.endsId_of_endsPort
  have hcolon : ∀ {q : Parser}, q.ahead = rest → q.token ≠ .colon := by
    intro q hq hc
    have ht : q.token.endsPort = true := (hq ▸ hf : Follows _ q.ahead).token
    rw [hc] at ht
    cases ht
  cases port with
  | absent =>
    refine .token rfl ?_
    rw [if_neg (hcolon h)]
    exact .pure h
  | alone id =>
    obtain ⟨t, ts, ht, -, hs⟩ := id.exists_token
    have hnext : Follows (fun _ => true) (id.tokens.map Except.ok ++ rest) :=
      follows_append (fun _ _ => rfl) fun _ => hid.mono fun _ _ => rfl
    refine .token (Parser.token_of_ahead h) ?_
    rw [if_pos rfl]
    refine (Yields.advance h (by simp) hnext).bind fun q hq _ => ?_
    refine .token (Parser.token_of_ahead (by rw [hq, ht]; rfl)) ?_
    refine (ident_complete id hq hid).bind fun q' hq' _ => .token rfl ?_
    rw [if_neg (hcolon hq'), hs, Port.endpoint]
    cases id.compass? with
    | some compass => exact Yields.pure hq'
    | none => exact Yields.pure hq'
  | sided id compass =>
    obtain ⟨t, ts, ht, -⟩ := id.exists_token
    have h' : p.ahead = .ok Token.colon :: (id.tokens.map .ok ++
        (.ok Token.colon :: .ok (Token.identifier compass.name) :: rest)) := by
      simpa [Port.tokens] using h
    refine .token (Parser.token_of_ahead h') ?_
    rw [if_pos rfl]
    refine (Yields.advance h' (by simp) (by rw [ht]; exact follows_cons (C := fun _ => true) rfl _)).bind fun q hq _ => ?_
    refine .token (Parser.token_of_ahead (by rw [hq, ht]; rfl)) ?_
    refine (ident_complete id hq (follows_cons rfl _)).bind fun q₁ hq₁ _ => ?_
    refine .token (Parser.token_of_ahead hq₁) ?_
    rw [if_pos rfl]
    refine (Yields.advance hq₁ (by simp) (follows_cons (C := fun _ => true) rfl _)).bind fun q₂ hq₂ _ => ?_
    refine .token (Parser.token_of_ahead hq₂) ?_
    rw [compassOf?_name]
    exact (Yields.advance hq₂ (by simp) hf).bind fun q₃ hq₃ _ => .pure hq₃

theorem nodeId_complete (id : NodeId) (h : p.ahead = id.tokens.map .ok ++ rest) (hf : Follows Token.endsPort rest) :
    Yields (do endpoint (← ident).text) p id.endpoint rest := by
  have h' : p.ahead = id.node.tokens.map .ok ++ (id.port.tokens.map .ok ++ rest) := by
    simpa [NodeId.tokens] using h
  have hport : Follows Token.endsId (id.port.tokens.map .ok ++ rest) := by
    cases id.port with
    | absent => exact hf.mono Token.endsId_of_endsPort
    | alone port => exact follows_cons rfl _
    | sided port compass => exact follows_cons rfl _
  exact (ident_complete id.node h' hport).bind fun q hq _ => endpoint_complete id.node.text id.port hq hf

/-! ## Attribute lists -/

theorem follows_id (id : Id) (rest : List (Except Error Token)) :
    Follows (fun t => t.isId) (id.tokens.map .ok ++ rest) := by
  obtain ⟨t, ts, ht, hid, -⟩ := id.exists_token
  rw [ht]
  exact follows_cons hid _

theorem clean_of_follows {t : Token} {us : List Token} {id : Id} (h : p.ahead = .ok t :: (us.map .ok ++ rest))
    (hs : ∀ t ∈ id.tokens, t ∈ us) : ∀ t ∈ id.tokens, t.Clean := fun t' ht =>
  Parser.clean_of_ahead h (List.mem_append_left _ (List.mem_map_of_mem (hs t' ht)))

theorem assignment_complete (a : Assignment) (attrs : Attributes) (hn : a.name.CanName)
    (h : p.ahead = a.tokens.map .ok ++ rest) (hf : Follows Token.endsAssignment rest) :
    Yields (assignment attrs) p (attrs.insert a.attribute) rest := by
  have hw : a.value.ident.value.isWritable = true := by
    obtain ⟨t, ts, ht, -⟩ := a.name.exists_token
    rw [Assignment.tokens, ht] at h
    refine Id.isWritable (clean_of_follows h fun t ht => ?_)
    exact List.mem_append_right _ (List.mem_cons_of_mem _ (List.mem_append_left _ ht))
  have h' : p.ahead = a.name.tokens.map .ok ++ (.ok Token.equal ::
      (a.value.tokens.map .ok ++ (a.separator.tokens.map .ok ++ rest))) := by
    simpa [Assignment.tokens] using h
  have hsep : Follows Token.endsId (a.separator.tokens.map .ok ++ rest) := by
    cases a.separator with
    | absent => exact hf.mono Token.endsId_of_endsAssignment
    | semicolon => exact follows_cons rfl _
    | comma => exact follows_cons rfl _
  refine .get ((ident_complete a.name h' (follows_cons rfl _)).bind fun q₁ hq₁ _ => ?_)
  refine (Yields.expect hq₁ (by simp) (follows_id a.value _)).bind fun q₂ hq₂ _ => ?_
  refine (value_complete a.value hq₂ hsep).bind fun q₃ hq₃ _ => ?_
  refine (Yields.ofEdit (Attributes.set_eq_ok.2 ⟨hn.1, hn.2, hw, rfl⟩) hq₃).bind fun q₄ hq₄ _ => ?_
  refine .token rfl (.token rfl ?_)
  cases hs : a.separator with
  | absent =>
    rw [hs] at hq₄
    replace hq₄ : q₄.ahead = rest := hq₄
    have ht : q₄.token.endsAssignment = true := (hq₄ ▸ hf : Follows _ q₄.ahead).token
    rw [if_neg]
    · exact .pure hq₄
    · rintro (ht' | ht') <;> (rw [ht'] at ht; cases ht)
  | semicolon =>
    rw [hs] at hq₄
    rw [if_pos (Or.inl (Parser.token_of_ahead hq₄))]
    exact (Yields.advance hq₄ (by simp) hf).bind fun q₅ hq₅ _ => .pure hq₅
  | comma =>
    rw [hs] at hq₄
    rw [if_pos (Or.inr (Parser.token_of_ahead hq₄))]
    exact (Yields.advance hq₄ (by simp) hf).bind fun q₅ hq₅ _ => .pure hq₅

theorem follows_assignments (assignments : List Assignment) (rest : List (Except Error Token)) :
    Follows Token.endsAssignment
      ((assignments.flatMap Assignment.tokens).map .ok ++ .ok .closeBracket :: rest) := by
  cases assignments with
  | nil => exact follows_cons rfl _
  | cons a assignments =>
    obtain ⟨t, ts, ht, hid, -⟩ := a.name.exists_token
    rw [List.flatMap_cons, Assignment.tokens, ht]
    refine follows_cons ?_ _
    cases t <;> first | rfl | cases hid

theorem attributeList_complete {fuel : Nat} : ∀ {p : Parser} {attrs : Attributes} {first : List Assignment}
    {more : List (List Assignment)}, AttrsCanName (first :: more) →
    p.ahead = (first.flatMap Assignment.tokens).map .ok ++ .ok .closeBracket :: ((attrTokens more).map .ok ++ rest) →
    p.ahead.length ≤ fuel → Follows Token.endsAttrs rest →
    Yields (attributeList fuel attrs) p
      ((first :: more).flatten.foldl (fun attrs a => attrs.insert a.attribute) attrs) rest := by
  induction fuel with
  | zero =>
    intro p attrs first more _ _ hl _
    simp [Parser.ahead] at hl
  | succ fuel ih =>
    intro p attrs first more hn h hl hf
    cases first with
    | nil =>
      replace h : p.ahead = .ok Token.closeBracket :: ((attrTokens more).map .ok ++ rest) := h
      have hnext : Follows (fun _ => true) ((attrTokens more).map Except.ok ++ rest) :=
        follows_append (fun _ _ => rfl) fun _ => hf.mono fun _ _ => rfl
      refine .token (Parser.token_of_ahead h) ?_
      rw [if_pos rfl]
      refine (Yields.advance h (by simp) hnext).bind fun q hq _ => .token rfl ?_
      cases more with
      | nil =>
        replace hq : q.ahead = rest := hq
        have ht : q.token.endsAttrs = true := (hq ▸ hf : Follows _ q.ahead).token
        rw [if_neg (bne_iff_ne.1 ht)]
        exact .pure hq
      | cons second more =>
        have hq' : q.ahead = .ok Token.openBracket :: ((second.flatMap Assignment.tokens).map .ok ++
            .ok .closeBracket :: ((attrTokens more).map .ok ++ rest)) := by
          simpa [attrTokens, bracketTokens] using hq
        rw [if_pos (Parser.token_of_ahead hq')]
        refine (Yields.advance hq' (by simp) (follows_assignments second _)).bind fun q' hq₁ _ => ?_
        have hn' : AttrsCanName (second :: more) := by simpa [AttrsCanName] using hn
        have hl' : q'.ahead.length ≤ fuel := by
          have h₁ := congrArg List.length h
          have h₂ := congrArg List.length hq'
          rw [hq, List.length_cons] at h₂
          rw [List.length_cons] at h₁
          rw [hq₁]
          omega
        exact @ih q' attrs second more hn' hq₁ hl' hf
    | cons a first =>
      have h' : p.ahead = a.tokens.map .ok ++ ((first.flatMap Assignment.tokens).map .ok ++
          .ok .closeBracket :: ((attrTokens more).map .ok ++ rest)) := by
        simpa using h
      have hid : p.token.isId = true := by
        obtain ⟨t, ts, ht, hid, -⟩ := a.name.exists_token
        rw [Assignment.tokens, ht] at h'
        rw [Parser.token_of_ahead h', hid]
      refine .token rfl ?_
      rw [if_neg (fun hc => by rw [hc] at hid; cases hid)]
      refine .token rfl ?_
      rw [if_pos hid]
      have ha : a.name.CanName := hn a (by simp)
      refine (assignment_complete a attrs ha h' (follows_assignments first _)).bind fun q hq _ => ?_
      refine ih (fun b hb => hn b (by simp_all)) hq ?_ hf
      have h₁ := congrArg List.length h'
      have h₂ : 0 < a.tokens.length := List.length_pos_iff.2 (by simp [Assignment.tokens])
      rw [List.length_append, List.length_map] at h₁
      rw [hq]
      omega

theorem attributes_complete {brackets : List (List Assignment)} (hn : AttrsCanName brackets)
    (h : p.ahead = (attrTokens brackets).map .ok ++ rest) (hf : Follows Token.endsAttrs rest) :
    Yields attributes p (attributesOf brackets) rest := by
  refine .token rfl ?_
  cases brackets with
  | nil =>
    replace h : p.ahead = rest := h
    have ht : p.token.endsAttrs = true := (h ▸ hf : Follows _ p.ahead).token
    rw [if_neg (bne_iff_ne.1 ht)]
    exact .pure h
  | cons first more =>
    have h' : p.ahead = .ok Token.openBracket :: ((first.flatMap Assignment.tokens).map .ok ++
        .ok .closeBracket :: ((attrTokens more).map .ok ++ rest)) := by
      simpa [attrTokens, bracketTokens] using h
    rw [if_pos (Parser.token_of_ahead h')]
    refine (Yields.advance h' (by simp) (follows_assignments first _)).bind fun q hq _ => ?_
    have hlist : Yields (attributeList (q.lexer.rest.length + 2) ∅) q (attributesOf (first :: more)) rest :=
      attributeList_complete hn hq q.ahead_length_le hf
    exact .fuel hlist

/-! ## The tokens between statements -/

/-- What the first token of a statement is like: nothing that goes on with another statement, and a brace
only if the statement is bare. -/
structure Stmt.BeginsWith (stmt : Stmt) (t : Token) : Prop where
  endsStmt : t.endsStmt = true
  ne_semicolon : t ≠ .semicolon
  ne_closeBrace : t ≠ .closeBrace
  ne_eof : t ≠ .eof
  bare : t = .openBrace → stmt.bare? ≠ none

theorem Stmt.exists_token (stmt : Stmt) : ∃ t ts, stmt.tokens = t :: ts ∧ stmt.BeginsWith t := by
  have hid (id : Id) (us : List Token) : ∃ t ts, id.tokens ++ us = t :: ts ∧ stmt.BeginsWith t := by
    obtain ⟨t, ts, ht, hi, -⟩ := id.exists_token
    rw [ht]
    refine ⟨t, ts ++ us, rfl, ?_⟩
    cases t <;> first | (cases hi; done) | exact ⟨rfl, by simp, by simp, by simp, by simp⟩
  have hgroup (group : Group) (us : List Token) (hb : ∀ body, group = .braced .absent body → stmt.bare? ≠ none) :
      ∃ t ts, group.tokens ++ us = t :: ts ∧ stmt.BeginsWith t := by
    cases group with
    | reference id => exact ⟨_, _, rfl, rfl, by simp, by simp, by simp, by simp⟩
    | braced head body =>
      cases head with
      | absent => exact ⟨_, _, rfl, rfl, by simp, by simp, by simp, fun _ => hb body rfl⟩
      | keyword name => exact ⟨_, _, rfl, rfl, by simp, by simp, by simp, by simp⟩
  cases stmt with
  | defaults category first more =>
    obtain ⟨keyword, hk⟩ : ∃ keyword, categoryToken category = .keyword keyword := by
      cases category <;> exact ⟨_, rfl⟩
    rw [Stmt.tokens, hk]
    exact ⟨_, _, rfl, rfl, by simp, by simp, by simp, by simp⟩
  | assign name value => exact hid name _
  | node id attrs =>
    rw [Stmt.tokens, NodeId.tokens, List.append_assoc]
    exact hid id.node _
  | group group =>
    rw [Stmt.tokens, ← List.append_nil group.tokens]
    exact hgroup group [] (by rintro body rfl; simp [Stmt.bare?])
  | edge first directed second more attrs =>
    cases first with
    | node id =>
      rw [Stmt.tokens, Operand.tokens, NodeId.tokens, List.append_assoc]
      exact hid id.node _
    | group group => exact hgroup group _ (by rintro body rfl; simp [Stmt.bare?])

/-- What stands behind a statement without a semicolon. -/
theorem Body.follows (body : Body) (rest : List (Except Error Token)) :
    Follows (fun t => t.endsStmt && t != .semicolon) (body.tokens.map .ok ++ .ok .closeBrace :: rest) := by
  cases body with
  | nil => exact follows_cons rfl _
  | cons stmt semicolon body =>
    obtain ⟨t, ts, ht, hb⟩ := stmt.exists_token
    rw [Body.tokens, ht]
    exact follows_cons (Bool.and_eq_true_iff.2 ⟨hb.endsStmt, bne_iff_ne.2 hb.ne_semicolon⟩) _

/-- No brace stands behind an open statement of a greedy body. -/
theorem Body.Apart.follows {stmt : Stmt} {semicolon : Bool} {body : Body} (h : body.Apart stmt semicolon)
    (ho : stmt.isOpen = true) (rest : List (Except Error Token)) :
    Follows Token.endsReference
      ((semicolonTokens semicolon ++ body.tokens).map .ok ++ .ok .closeBrace :: rest) := by
  cases semicolon with
  | true => exact follows_cons rfl _
  | false =>
    cases body with
    | nil => exact follows_cons rfl _
    | cons next semicolon body =>
      obtain ⟨t, ts, ht, hb⟩ := next.exists_token
      rw [Body.tokens, ht]
      refine follows_cons ?_ _
      exact bne_iff_ne.2 fun he => hb.bare he (h rfl ho)

theorem follows_attrs {C : Token → Bool} (hC : C .openBracket = true) (brackets : List (List Assignment))
    (hr : brackets = [] → Follows C rest) : Follows C ((attrTokens brackets).map .ok ++ rest) := by
  cases brackets with
  | nil => exact hr rfl
  | cons bracket brackets => exact follows_cons hC _

theorem isEdgeOp_edgeOp (directed : Bool) : (Token.edgeOp directed).isEdgeOp = true := by cases directed <;> rfl

theorem follows_chain {C : Token → Bool} (hC : ∀ directed, C (.edgeOp directed) = true) (chain : Chain)
    (hr : chain = .nil → Follows C rest) : Follows C (chain.tokens.map .ok ++ rest) := by
  cases chain with
  | nil => exact hr rfl
  | cons directed operand chain => exact follows_cons (hC directed) _

theorem Chain.isOpen_of_false {chain : Chain} (h : chain.isOpen false = true) (before : Bool) :
    chain.isOpen before = true := by
  cases chain with
  | nil => cases h
  | cons directed operand rest => exact h

theorem Group.follows (group : Group) (rest : List (Except Error Token)) :
    Follows (fun t => t == .keyword .subgraph || t == .openBrace) (group.tokens.map .ok ++ rest) := by
  cases group with
  | reference id => exact follows_cons rfl _
  | braced head body =>
    cases head with
    | absent => exact follows_cons rfl _
    | keyword name => exact follows_cons rfl _

theorem Operand.follows (operand : Operand) (rest : List (Except Error Token)) :
    Follows (fun _ => true) (operand.tokens.map .ok ++ rest) := by
  cases operand with
  | group group => exact (group.follows rest).mono fun _ _ => rfl
  | node id =>
    obtain ⟨t, ts, ht, -⟩ := id.node.exists_token
    rw [Operand.tokens, NodeId.tokens, ht]
    exact follows_cons rfl _

/-! ## Groups, operands and chains -/

theorem length_le_of_ahead {ts : List Token} (h : p.ahead = ts.map .ok ++ rest) :
    rest.length + ts.length = p.ahead.length := by
  rw [h, List.length_append, List.length_map, Nat.add_comm]

theorem bracedGroup_complete {body : Builder → Parse Builder} {builder : Builder} {name : String} {tree : Body}
    (hd : p.depth < maxNesting) (h : p.ahead = .ok Token.openBrace :: (tree.tokens.map .ok ++ .ok .closeBrace :: rest))
    (hb : ∀ q : Parser, q.ahead = tree.tokens.map .ok ++ .ok .closeBrace :: rest → q.depth = p.depth + 1 →
      Yields (body (builder.openSubgraph name)) q (tree.run (builder.openSubgraph name)) rest) :
    Yields (bracedGroup body builder name) p (tree.run (builder.openSubgraph name)).closeSubgraph rest := by
  refine .token rfl (.get ?_)
  rw [if_neg fun hn => Nat.not_le_of_lt hd hn.2]
  refine (Yields.expect h (by simp) (tree.follows rest)).bind fun q hq hqd => ?_
  obtain ⟨q', hrun, hahead, hdepth⟩ := hb { q with depth := q.depth + 1 } hq (congrArg (· + 1) hqd)
  let closed : Parser :=
    { q' with depth := q'.depth - 1, notes := q'.notes ++ (tree.run (builder.openSubgraph name)).closeNotes }
  refine ⟨closed, ?_, hahead, ?_⟩
  · rw [bind_modify, bind_of_ok hrun]
    rfl
  · show q'.depth - 1 = q.depth
    rw [hdepth]
    exact Nat.add_sub_cancel ..

theorem chainFrom_complete {body : Builder → Parse Builder} {n : Nat} {builder : Builder}
    {acc : List DotLang.Operand} {operand : Operand} {more : Chain} {directed : Bool}
    {rest' : List (Except Error Token)} (hdir : directed = builder.kind.directed)
    (h : p.ahead = .ok (Token.edgeOp directed) :: (operand.tokens.map .ok ++ rest'))
    (ho : ∀ q : Parser, q.ahead = operand.tokens.map .ok ++ rest' → q.depth = p.depth →
      Yields (Parse.operand body builder) q (operand.run builder) rest')
    (hm : ∀ q : Parser, q.ahead = rest' → q.depth = p.depth →
      Yields (chainFrom body n (operand.run builder).2 (acc ++ [(operand.run builder).1])) q
        (acc ++ [(operand.run builder).1] ++ (more.run (operand.run builder).2).1,
          (more.run (operand.run builder).2).2) rest) :
    Yields (chainFrom body (n + 1) builder acc) p
      (acc ++ ((Chain.cons directed operand more).run builder).1, ((Chain.cons directed operand more).run builder).2)
      rest := by
  subst hdir
  refine .token (Parser.token_of_ahead h) ?_
  rw [if_pos (isEdgeOp_edgeOp _)]
  refine .token (Parser.token_of_ahead h) ?_
  rw [if_neg (fun hne => hne rfl)]
  refine (Yields.advance h (Token.edgeOp_ne_eof _) (operand.follows _)).bind fun q hq hqd => ?_
  refine (ho q hq hqd).bind fun q' hq' hqd' => ?_
  have hrest := hm q' hq' (hqd'.trans hqd)
  rw [List.append_assoc] at hrest
  exact hrest

theorem chainFrom_end {body : Builder → Parse Builder} {n : Nat} {builder : Builder} {acc : List DotLang.Operand}
    (h : p.ahead = rest) (hf : Follows Token.endsChain rest) :
    Yields (chainFrom body n builder acc) p (acc ++ (Chain.nil.run builder).1, (Chain.nil.run builder).2) rest := by
  rw [show acc ++ (Chain.nil.run builder).1 = acc from List.append_nil acc]
  cases n with
  | zero => exact .pure h
  | succ n =>
    have ht : p.token.endsChain = true := (h ▸ hf : Follows _ p.ahead).token
    have hop : p.token.isEdgeOp = false := by
      have := (Bool.and_eq_true_iff.1 ht).2
      simpa using this
    refine .token rfl ?_
    rw [if_neg (by rw [hop]; nofun)]
    exact .pure h

/-! ## What the token in hand decides -/

theorem operand_of_isId {body : Builder → Parse Builder} {builder : Builder} {a : DotLang.Operand × Builder}
    (hid : p.token.isId = true)
    (h : Yields (ident >>= fun i => endpoint i.text >>= fun e => pure (DotLang.Operand.node e, builder)) p a rest) :
    Yields (Parse.operand body builder) p a rest := by
  refine .token rfl ?_
  cases ht : p.token <;> rw [ht] at hid <;> first | (cases hid; done) | exact h

theorem operand_of_group {body : Builder → Parse Builder} {builder : Builder} {a : List String × Builder}
    (ht : (p.token == .keyword .subgraph || p.token == .openBrace) = true)
    (h : Yields (subgraph body builder) p a rest) :
    Yields (Parse.operand body builder) p (.group a.1, a.2) rest := by
  rw [Bool.or_eq_true, beq_iff_eq, beq_iff_eq] at ht
  rcases ht with ht | ht
  · exact .token ht (h.bind fun q hq _ => .pure hq)
  · exact .token ht (h.bind fun q hq _ => .pure hq)

theorem statement_of_isId {body : Builder → Parse Builder} {builder result : Builder} (hid : p.token.isId = true)
    (h : Yields (idStatement body builder) p result rest) : Yields (statement body builder) p result rest := by
  refine .token rfl ?_
  cases ht : p.token <;> rw [ht] at hid <;> first | (cases hid; done) | exact h

theorem statement_of_group {body : Builder → Parse Builder} {builder result : Builder}
    (ht : (p.token == .keyword .subgraph || p.token == .openBrace) = true)
    (h : Yields (groupStatement body builder) p result rest) : Yields (statement body builder) p result rest := by
  rw [Bool.or_eq_true, beq_iff_eq, beq_iff_eq] at ht
  rcases ht with ht | ht
  · exact .token ht h
  · exact .token ht h

theorem body_of_statement {fuel : Nat} {builder : Builder} {stmt : Stmt} {a : Builder}
    (hb : stmt.BeginsWith p.token)
    (h : Yields (statement (body fuel) builder >>= fun builder => token >>= fun t =>
      if t = .semicolon then (advance >>= fun _ => body fuel builder) else body fuel builder) p a rest) :
    Yields (body (fuel + 1) builder) p a rest := by
  refine .token rfl ?_
  cases ht : p.token with
  | closeBrace => exact absurd ht hb.ne_closeBrace
  | eof => exact absurd ht hb.ne_eof
  | _ => exact h

theorem isId_token_append {id : Id} {ts : List Token} (h : p.ahead = (id.tokens ++ ts).map .ok ++ rest) :
    p.token.isId = true := by
  rw [List.map_append, List.append_assoc] at h
  exact isId_token h

/-- The part of a statement that begins with a node, up to what follows the node. -/
theorem nodeStatement_complete {body : Builder → Parse Builder} {builder result : Builder} {id : NodeId}
    {rest' : List (Except Error Token)} (h : p.ahead = id.tokens.map .ok ++ rest) (hf : Follows Token.endsNode rest)
    (hb : ∀ q : Parser, q.ahead = rest → q.depth = p.depth →
      Yields (token >>= fun t => if t.isEdgeOp then edgeStatement body builder (.node id.endpoint)
        else attributes >>= fun attrs => pure (builder.declareNode id.endpoint.node attrs)) q result rest') :
    Yields (statement body builder) p result rest' := by
  have h' : p.ahead = id.node.tokens.map .ok ++ (id.port.tokens.map .ok ++ rest) := by
    simpa [NodeId.tokens] using h
  have hport : Follows (fun t => t.endsId && t != .equal) (id.port.tokens.map .ok ++ rest) := by
    cases id.port with
    | absent => exact hf.mono fun t ht => by unfold Token.endsNode at ht; simp_all [Token.endsId]
    | alone port => exact follows_cons rfl _
    | sided port compass => exact follows_cons rfl _
  refine statement_of_isId (isId_token h') (.get ?_)
  refine (ident_complete id.node h' (hport.mono fun _ ht => (Bool.and_eq_true_iff.1 ht).1)).bind fun q hq hd => ?_
  have ht := (Bool.and_eq_true_iff.1 (hq ▸ hport : Follows _ q.ahead).token).2
  refine .token rfl ?_
  rw [if_neg (bne_iff_ne.1 ht)]
  exact (endpoint_complete id.node.text id.port hq (hf.mono Token.endsPort_of_endsNode)).bind fun q₁ hq₁ hd₁ =>
    hb q₁ hq₁ (hd₁.trans hd)

end

/-! ## Statements and bodies -/

mutual
theorem Group.complete {fuel : Nat} : ∀ (group : Group) {builder : Builder} {p : Parser}
    {rest : List (Except Error Token)}, group.Greedy → group.Admissible builder.kind.directed p.depth →
    p.ahead = group.tokens.map .ok ++ rest → p.ahead.length ≤ fuel + 1 → Follows Token.endsId rest →
    (group.isOpen = true → Follows Token.endsReference rest) →
    Yields (subgraph (body fuel) builder) p (group.run builder) rest
  | .braced .absent body, builder, p, rest, hg, ha, h, hl, hf, _ => by
    have h' : p.ahead = .ok Token.openBrace :: (body.tokens.map .ok ++ .ok .closeBrace :: rest) := by
      simpa [Group.tokens, Head.tokens] using h
    refine .token (Parser.token_of_ahead h') ?_
    rw [if_neg nofun]
    refine bracedGroup_complete ha.1 h' fun q hq hd => ?_
    refine body.complete hg (by rw [hd]; exact ha.2) hq ?_ (hf.mono fun _ _ => rfl)
    rw [h', List.length_cons] at hl
    rw [hq]
    omega
  | .braced (.keyword name) body, builder, p, rest, hg, ha, h, hl, hf, _ => by
    have h' : p.ahead = .ok (Token.keyword .subgraph) :: ((nameTokens name).map .ok ++
        .ok .openBrace :: (body.tokens.map .ok ++ .ok .closeBrace :: rest)) := by
      simpa [Group.tokens, Head.tokens] using h
    have hnext : Follows (fun _ => true) ((nameTokens name).map .ok ++
        .ok Token.openBrace :: (body.tokens.map .ok ++ .ok .closeBrace :: rest)) :=
      follows_append (fun _ _ => rfl) fun _ => follows_cons rfl _
    refine .token (Parser.token_of_ahead h') ?_
    rw [if_pos rfl]
    refine (Yields.advance h' (by simp) hnext).bind fun q hq hd => ?_
    refine (name_complete name hq (follows_cons rfl _) fun _ => follows_cons rfl _).bind fun q₁ hq₁ hd₁ => ?_
    refine .token (Parser.token_of_ahead hq₁) ?_
    rw [if_neg fun hn => hn.1 rfl]
    have hdepth : q₁.depth = p.depth := hd₁.trans hd
    refine bracedGroup_complete (by rw [hdepth]; exact ha.1) hq₁ fun q₂ hq₂ hd₂ => ?_
    refine body.complete hg (by rw [hd₂, hdepth]; exact ha.2) hq₂ ?_ (hf.mono fun _ _ => rfl)
    rw [h', List.length_cons, List.length_append, List.length_cons] at hl
    rw [hq₂]
    omega
  | .reference id, builder, p, rest, _, ha, h, _, hf, ho => by
    replace h : p.ahead = .ok (Token.keyword .subgraph) :: ((nameTokens (some id)).map .ok ++ rest) := h
    refine .token (Parser.token_of_ahead h) ?_
    rw [if_pos rfl]
    refine (Yields.advance h (by simp) (follows_id id rest)).bind fun q hq _ => ?_
    refine (name_complete (some id) hq hf nofun).bind fun q₁ hq₁ _ => ?_
    have ht : q₁.token.endsReference = true := (hq₁ ▸ ho rfl : Follows _ q₁.ahead).token
    have hne : ¬ (nameText (some id)).isEmpty = true := fun he => ha (String.isEmpty_iff.1 he)
    refine .token rfl ?_
    rw [if_pos ⟨bne_iff_ne.1 ht, hne⟩]
    exact .pure hq₁

theorem Operand.complete {fuel : Nat} : ∀ (operand : Operand) {builder : Builder} {p : Parser}
    {rest : List (Except Error Token)}, operand.Greedy → operand.Admissible builder.kind.directed p.depth →
    p.ahead = operand.tokens.map .ok ++ rest → p.ahead.length ≤ fuel + 1 → Follows Token.endsNode rest →
    (operand.isOpen = true → Follows Token.endsReference rest) →
    Yields (Parse.operand (body fuel) builder) p (operand.run builder) rest
  | .node id, builder, p, rest, _, _, h, _, hf, _ => by
    refine operand_of_isId (isId_token_append h) ?_
    rw [← bind_assoc]
    exact (nodeId_complete id h (hf.mono Token.endsPort_of_endsNode)).bind fun q hq _ => .pure hq
  | .group group, builder, p, rest, hg, ha, h, hl, hf, ho => by
    have ht := (h ▸ group.follows rest : Follows _ p.ahead).token
    exact operand_of_group ht (group.complete hg ha h hl (hf.mono Token.endsId_of_endsNode) ho)

theorem Chain.complete {fuel : Nat} : ∀ (chain : Chain) {n : Nat} {builder : Builder} {p : Parser}
    {acc : List DotLang.Operand} {rest : List (Except Error Token)},
    chain.Greedy → chain.Admissible builder.kind.directed p.depth →
    p.ahead = chain.tokens.map .ok ++ rest → p.ahead.length ≤ fuel + 1 → p.ahead.length ≤ n →
    Follows Token.endsChain rest → (chain.isOpen false = true → Follows Token.endsReference rest) →
    Yields (chainFrom (body fuel) n builder acc) p (acc ++ (chain.run builder).1, (chain.run builder).2) rest
  | .nil, n, builder, p, acc, rest, _, _, h, _, _, hf, _ => chainFrom_end h hf
  | .cons directed operand more, n, builder, p, acc, rest, hg, ha, h, hl, hn, hf, ho => by
    have h' : p.ahead = .ok (Token.edgeOp directed) ::
        (operand.tokens.map .ok ++ (more.tokens.map .ok ++ rest)) := by
      simpa [Chain.tokens] using h
    have hlen := congrArg List.length h'
    rw [List.length_cons] at hlen
    cases n with
    | zero => rw [hlen] at hn; cases hn
    | succ n =>
      refine chainFrom_complete ha.1 h' (fun q hq hd => ?_) fun q hq hd => ?_
      · refine operand.complete hg.1 (by rw [hd]; exact ha.2.1) hq (by rw [hq]; omega) ?_ fun hopen => ?_
        · exact follows_chain (fun directed => by cases directed <;> rfl) more fun _ =>
            hf.mono Token.endsNode_of_endsChain
        · refine follows_chain (fun directed => by cases directed <;> rfl) more fun hm => ho ?_
          rw [hm]
          exact hopen
      · refine more.complete hg.2 (by rw [operand.kind_run, hd]; exact ha.2.2) hq ?_ ?_ hf fun hopen =>
          ho (Chain.isOpen_of_false hopen _)
        · rw [List.length_append] at hlen
          rw [hq]
          omega
        · rw [List.length_append] at hlen
          rw [hq]
          omega

theorem Stmt.complete {fuel : Nat} : ∀ (stmt : Stmt) {builder : Builder} {p : Parser}
    {rest : List (Except Error Token)}, stmt.Greedy → stmt.Admissible builder.kind.directed p.depth →
    p.ahead = stmt.tokens.map .ok ++ rest → p.ahead.length ≤ fuel + 1 → Follows Token.endsStmt rest →
    (stmt.isOpen = true → Follows Token.endsReference rest) →
    Yields (statement (body fuel) builder) p (stmt.run builder) rest
  | .defaults category first more, builder, p, rest, _, ha, h, _, hf, _ => by
    replace h : p.ahead = .ok (categoryToken category) :: ((attrTokens (first :: more)).map .ok ++ rest) := h
    have hattrs := hf.mono Token.endsAttrs_of_endsStmt
    have hset : Yields (defaultsStatement builder category) p
        (builder.setDefaults category (attributesOf (first :: more))) rest := by
      refine (Yields.advance h (by cases category <;> nofun) (follows_cons (C := fun _ => true) rfl _)).bind
        fun q hq _ => .token (Parser.token_of_ahead hq) ?_
      rw [if_pos rfl]
      exact (attributes_complete ha hq hattrs).bind fun q hq _ => .pure hq
    cases category <;> exact .token (Parser.token_of_ahead h) hset
  | .assign name value, builder, p, rest, _, ha, h, _, hf, _ => by
    have hid := (hf.mono Token.endsChain_of_endsStmt).mono Token.endsNode_of_endsChain |>.mono Token.endsId_of_endsNode
    have hw : value.ident.value.isWritable = true := by
      obtain ⟨t, ts, ht, -⟩ := name.exists_token
      rw [Stmt.tokens, ht] at h
      refine Id.isWritable (clean_of_follows h fun t ht => ?_)
      exact List.mem_append_right _ (List.mem_cons_of_mem _ ht)
    have h' : p.ahead = name.tokens.map .ok ++ (.ok Token.equal :: (value.tokens.map .ok ++ rest)) := by
      simpa [Stmt.tokens] using h
    refine statement_of_isId (isId_token h') (.get ?_)
    refine (ident_complete name h' (follows_cons rfl _)).bind fun q hq _ => ?_
    refine .token (Parser.token_of_ahead hq) ?_
    rw [if_pos rfl]
    refine (Yields.advance hq (by simp) (follows_id value rest)).bind fun q₁ hq₁ _ => ?_
    refine (value_complete value hq₁ hid).bind fun q₂ hq₂ _ => ?_
    exact .ofEdit (Builder.setAttribute_eq_ok.2 ⟨ha.1, ⟨ha.2, hw⟩, rfl⟩) hq₂
  | .node id attrs, builder, p, rest, _, ha, h, _, hf, _ => by
    have h' : p.ahead = id.tokens.map .ok ++ ((attrTokens attrs).map .ok ++ rest) := by
      simpa [Stmt.tokens] using h
    refine nodeStatement_complete h' (follows_attrs rfl attrs fun _ => ?_) fun q hq _ => ?_
    · exact (hf.mono Token.endsChain_of_endsStmt).mono Token.endsNode_of_endsChain
    · have hop : Follows (fun t => !t.isEdgeOp) q.ahead := by
        rw [hq]
        exact follows_attrs rfl attrs fun _ => (hf.mono Token.endsChain_of_endsStmt).mono fun t ht =>
          (Bool.and_eq_true_iff.1 ht).2
      refine .token rfl ?_
      rw [if_neg (by simpa using hop.token)]
      exact (attributes_complete ha hq (hf.mono Token.endsAttrs_of_endsStmt)).bind fun q hq _ => .pure hq
  | .group group, builder, p, rest, hg, ha, h, hl, hf, ho => by
    have hchain := hf.mono Token.endsChain_of_endsStmt
    have hid := (hchain.mono Token.endsNode_of_endsChain).mono Token.endsId_of_endsNode
    refine statement_of_group (h ▸ group.follows rest : Follows _ p.ahead).token ?_
    refine (group.complete hg ha h hl hid ho).bind fun q hq _ => .token rfl ?_
    have ht : q.token.endsChain = true := (hq ▸ hchain : Follows _ q.ahead).token
    rw [if_neg (by simpa using (Bool.and_eq_true_iff.1 ht).2)]
    exact .pure hq
  | .edge first directed second more attrs, builder, p, rest, hg, ha, h, hl, hf, ho => by
    obtain ⟨haf, hdir, has, ham, haa⟩ := ha
    have hattrs := hf.mono Token.endsAttrs_of_endsStmt
    have hend : Follows Token.endsChain ((attrTokens attrs).map .ok ++ rest) :=
      follows_attrs rfl attrs fun _ => hf.mono Token.endsChain_of_endsStmt
    have hopen : more.isOpen second.isOpen = true →
        Follows Token.endsReference ((attrTokens attrs).map .ok ++ rest) := fun hm =>
      follows_attrs rfl attrs fun he => ho (by rw [he]; exact hm)
    have h' : p.ahead = first.tokens.map .ok ++ (.ok (Token.edgeOp directed) :: (second.tokens.map .ok ++
        (more.tokens.map .ok ++ ((attrTokens attrs).map .ok ++ rest)))) := by
      simpa [Stmt.tokens] using h
    -- Behind the first operand, the statement is an edge operator, an operand, the chain and the attributes.
    have hedge (q : Parser) (hq : q.ahead = .ok (Token.edgeOp directed) :: (second.tokens.map .ok ++
        (more.tokens.map .ok ++ ((attrTokens attrs).map .ok ++ rest)))) (hd : q.depth = p.depth) :
        Yields (edgeStatement (body fuel) (first.run builder).2 (first.run builder).1) q
          ((Stmt.edge first directed second more attrs).run builder) rest := by
      have hk : (first.run builder).2.kind = builder.kind := first.kind_run builder
      have hlen := congrArg List.length hq
      rw [List.length_cons, List.length_append] at hlen
      have hql : q.ahead.length ≤ fuel + 1 := by
        rw [← length_le_of_ahead h', ← hq] at hl
        omega
      have hchain : Yields (chainFrom (body fuel) (q.lexer.rest.length + 1 + 1) (first.run builder).2
          [(first.run builder).1]) q
          ([(first.run builder).1] ++ ((Chain.cons directed second more).run (first.run builder).2).1,
            ((Chain.cons directed second more).run (first.run builder).2).2)
          ((attrTokens attrs).map .ok ++ rest) := by
        refine chainFrom_complete (by rw [hk]; exact hdir) hq (fun q₁ hq₁ hd₁ => ?_) fun q₁ hq₁ hd₁ => ?_
        · refine second.complete hg.2.1 (by rw [hd₁, hd, hk]; exact has) hq₁ (by rw [hq₁, List.length_append]; omega)
            ?_ fun hs => ?_
          · exact follows_chain (fun directed => by cases directed <;> rfl) more fun _ =>
              hend.mono Token.endsNode_of_endsChain
          · refine follows_chain (fun directed => by cases directed <;> rfl) more fun hm => hopen ?_
            rw [hm]
            exact hs
        · have hle := q.ahead_length_le
          refine more.complete hg.2.2 ?_ hq₁ (by rw [hq₁]; omega) (by rw [hq₁]; omega) hend fun hm =>
            hopen (Chain.isOpen_of_false hm _)
          rw [hd₁, hd, second.kind_run, hk]
          exact ham
      refine .fuel (hchain.bind fun q₁ hq₁ _ => ?_)
      exact (attributes_complete haa hq₁ hattrs).bind fun q₂ hq₂ _ => .pure hq₂
    cases first with
    | node id =>
      have hn : p.ahead = id.tokens.map .ok ++ _ := h'
      refine nodeStatement_complete hn (follows_cons (by cases directed <;> rfl) _) fun q hq hd => ?_
      refine .token (Parser.token_of_ahead hq) ?_
      rw [if_pos (isEdgeOp_edgeOp directed)]
      exact hedge q hq hd
    | group group =>
      have hgr : p.ahead = group.tokens.map .ok ++ _ := h'
      refine statement_of_group (hgr ▸ group.follows _ : Follows _ p.ahead).token ?_
      refine (group.complete hg.1 haf hgr hl (follows_cons (by cases directed <;> rfl) _) fun _ =>
        follows_cons (by cases directed <;> rfl) _).bind fun q hq hd => .token (Parser.token_of_ahead hq) ?_
      rw [if_pos (isEdgeOp_edgeOp directed)]
      exact hedge q hq hd

theorem Body.complete {fuel : Nat} : ∀ (tree : Body) {builder : Builder} {p : Parser}
    {rest : List (Except Error Token)}, tree.Greedy → tree.Admissible builder.kind.directed p.depth →
    p.ahead = tree.tokens.map .ok ++ .ok .closeBrace :: rest → p.ahead.length ≤ fuel →
    Follows (fun _ => true) rest → Yields (body fuel builder) p (tree.run builder) rest
  | .nil, builder, p, rest, _, _, h, hl, hf => by
    replace h : p.ahead = .ok Token.closeBrace :: rest := h
    cases fuel with
    | zero => simp [Parser.ahead] at hl
    | succ fuel => exact .token (Parser.token_of_ahead h) ((Yields.advance h (by simp) hf).bind fun q hq _ => .pure hq)
  | .cons stmt semicolon tree, builder, p, rest, hg, ha, h, hl, hf => by
    obtain ⟨hgs, hgt, hapart⟩ := hg
    have h' : p.ahead = stmt.tokens.map .ok ++
        ((semicolonTokens semicolon ++ tree.tokens).map .ok ++ .ok .closeBrace :: rest) := by
      simpa [Body.tokens] using h
    have hends : Follows Token.endsStmt
        ((semicolonTokens semicolon ++ tree.tokens).map .ok ++ .ok .closeBrace :: rest) := by
      cases semicolon with
      | true => exact follows_cons rfl _
      | false => exact (tree.follows rest).mono fun _ ht => (Bool.and_eq_true_iff.1 ht).1
    have hlen := length_le_of_ahead h'
    obtain ⟨t, ts, ht, hb⟩ := stmt.exists_token
    have hpos : 0 < stmt.tokens.length := by rw [ht]; exact Nat.succ_pos _
    cases fuel with
    | zero => simp [Parser.ahead] at hl
    | succ fuel =>
      have htoken : p.token = t := Parser.token_of_ahead (by rw [h', ht]; rfl)
      refine body_of_statement (htoken ▸ hb) ?_
      refine (stmt.complete hgs ha.1 h' hl hends fun ho => hapart.follows ho rest).bind fun q hq hd => ?_
      have hrest (q₁ : Parser) (hq₁ : q₁.ahead = tree.tokens.map .ok ++ .ok .closeBrace :: rest)
          (hd₁ : q₁.depth = q.depth) : Yields (body fuel (stmt.run builder)) q₁ (tree.run (stmt.run builder)) rest := by
        refine tree.complete hgt (by rw [stmt.kind_run, hd₁, hd]; exact ha.2) hq₁ ?_ hf
        rw [List.map_append, List.append_assoc, List.length_append] at hlen
        rw [hq₁]
        omega
      refine .token rfl ?_
      cases semicolon with
      | true =>
        replace hq : q.ahead = .ok Token.semicolon :: (tree.tokens.map .ok ++ .ok .closeBrace :: rest) := hq
        rw [if_pos (Parser.token_of_ahead hq)]
        exact (Yields.advance hq (by simp) (tree.follows rest)).bind hrest
      | false =>
        replace hq : q.ahead = tree.tokens.map .ok ++ .ok .closeBrace :: rest := hq
        have ht := (Bool.and_eq_true_iff.1 (hq ▸ tree.follows rest : Follows _ q.ahead).token).2
        rw [if_neg (bne_iff_ne.1 ht)]
        exact hrest q hq rfl
end

/-! ## Documents -/

theorem directedness_complete {p : Parser} {rest : List (Except Error Token)} {directed : Bool}
    (h : p.ahead = .ok (Token.keyword (if directed then .digraph else .graph)) :: rest)
    (hf : Follows (fun _ => true) rest) : Yields directedness p directed rest := by
  cases directed with
  | true => exact .token (Parser.token_of_ahead h) ((Yields.advance h (by simp) hf).bind fun q hq _ => .pure hq)
  | false => exact .token (Parser.token_of_ahead h) ((Yields.advance h (by simp) hf).bind fun q hq _ => .pure hq)

theorem graph_complete {doc : Document} (hg : doc.Greedy) {p : Parser}
    (ha : doc.body.Admissible doc.directed p.depth) {rest : List (Except Error Token)}
    (h : p.ahead = doc.tokens.map .ok ++ rest) (hf : Follows (fun _ => true) rest) : Yields graph p doc.graph rest := by
  obtain ⟨strict, directed, name, tree⟩ := doc
  have hbody (q : Parser) (hq : q.ahead = .ok (Token.keyword (if directed then .digraph else .graph)) ::
      ((nameTokens name).map .ok ++ .ok .openBrace :: (tree.tokens.map .ok ++ .ok .closeBrace :: rest)))
      (hqd : q.depth = p.depth) :
      Yields (directedness >>= fun directed => Parse.name >>= fun name => expect .openBrace .openBrace >>= fun _ =>
        fuel >>= fun fuel => body fuel (Builder.new name ⟨directed, strict⟩).enterScope >>= fun builder =>
        pure builder.leaveScope.graph) q (Document.graph ⟨strict, directed, name, tree⟩) rest := by
    have hnext : Follows (fun _ => true) ((nameTokens name).map .ok ++
        .ok Token.openBrace :: (tree.tokens.map .ok ++ .ok .closeBrace :: rest)) :=
      follows_append (fun _ _ => rfl) fun _ => follows_cons rfl _
    refine (directedness_complete hq hnext).bind fun q₁ hq₁ hd₁ => ?_
    refine (name_complete name hq₁ (follows_cons rfl _) fun _ => follows_cons rfl _).bind fun q₂ hq₂ hd₂ => ?_
    refine (Yields.expect hq₂ (by simp) (tree.follows rest)).bind fun q₃ hq₃ hd₃ => ?_
    have hrun : Yields (body (q₃.lexer.rest.length + 2) (Builder.new (nameText name) ⟨directed, strict⟩).enterScope) q₃
        (Document.finished ⟨strict, directed, name, tree⟩) rest := by
      refine tree.complete hg ?_ hq₃ q₃.ahead_length_le hf
      rw [hd₃, hd₂, hd₁, hqd]
      exact ha
    exact .fuel (hrun.bind fun q₄ hq₄ _ => .pure hq₄)
  unfold graph
  cases strict with
  | true =>
    have h' : p.ahead = .ok (Token.keyword .strict) :: (.ok (.keyword (if directed then .digraph else .graph)) ::
        ((nameTokens name).map .ok ++ .ok .openBrace :: (tree.tokens.map .ok ++ .ok .closeBrace :: rest))) := by
      simpa [Document.tokens] using h
    refine .token (Parser.token_of_ahead h') ?_
    dsimp only
    rw [if_pos rfl]
    exact (Yields.advance h' (by simp) (follows_cons (C := fun _ => true) rfl _)).bind fun q hq hqd => hbody q hq hqd
  | false =>
    have h' : p.ahead = .ok (Token.keyword (if directed then .digraph else .graph)) ::
        ((nameTokens name).map .ok ++ .ok .openBrace :: (tree.tokens.map .ok ++ .ok .closeBrace :: rest)) := by
      simpa [Document.tokens] using h
    refine .token (Parser.token_of_ahead h') ?_
    have hne : ¬ Token.keyword (if directed then .digraph else .graph) = .keyword .strict := by
      cases directed <;> nofun
    dsimp only
    rw [if_neg hne, decide_eq_false hne]
    exact hbody p h' rfl

/-- A parser accepts the tokens of a greedy derivation, if bodies are nested no deeper than those allow that it takes
to be open already. -/
theorem process_complete {p : Parser} {doc : Document} (hg : doc.Greedy)
    (ha : doc.body.Admissible doc.directed p.depth)
    (h : p.lexer.tokens = (doc.tokens ++ [Token.eof]).map .ok) : ∃ q, p.process = (.ok doc.graph, q) := by
  have hstart : ∃ q, advance p = .ok () q ∧ q.ahead = doc.tokens.map .ok ++ [.ok .eof] ∧ q.depth = p.depth := by
    rw [List.map_append] at h
    match hn : p.lexer.next with
    | (.error error, lexer) =>
      rw [Lexer.tokens_of_error hn] at h
      have hlen := congrArg List.length h
      simp only [Document.tokens, List.length_append, List.length_map, List.length_cons, List.length_nil] at hlen
      omega
    | (.ok (token, loc), lexer) =>
      rw [Lexer.tokens_of_ok hn] at h
      refine ⟨{ p with lexer, token, loc }, ?_, h, rfl⟩
      unfold advance
      rw [hn]
  obtain ⟨p₁, h₁, hahead, hdepth⟩ := hstart
  rw [← hdepth] at ha
  obtain ⟨p₂, h₂, hrest, -⟩ := graph_complete hg ha hahead (follows_cons rfl _)
  have hdocument : document p = .ok doc.graph
      { p₂ with notes := p₂.notes ++ [.parsed doc.graph.kind doc.graph.nodes.size doc.graph.edges.length] } := by
    unfold document
    rw [bind_of_ok h₁, bind_of_ok h₂, bind_token]
    rw [if_neg (by rw [Parser.token_of_ahead hrest]; exact fun hne => hne rfl)]
    rfl
  exact ⟨_, run_ok.2 hdocument⟩

/-- A text that has a greedy derivation is accepted, and describes the graph that the derivation says. -/
theorem parse_complete {text : String} {doc : Document} (hg : doc.Greedy) (ha : doc.Admissible)
    (h : (Lexer.ofString text).tokens = (doc.tokens ++ [Token.eof]).map .ok) : parse text = .ok doc.graph := by
  obtain ⟨q, hq⟩ := process_complete (p := .ofString text) hg ha h
  unfold parse
  rw [hq]

end Grammar

end DotLang
