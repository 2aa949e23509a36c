import DotLang.Parser.Document
import DotLang.Proofs.Builder.Steps
import DotLang.Proofs.Grammar.Passing

/-!
# What a run does to a parser

All that reading does to a parser, whatever comes of it: tokens are passed one by one, behind a brace that opens a
group one body more is counted, and behind the brace that closes it one less. A run fails where the lexer does, at
the token in hand, or on an attribute that was read. What holds of every run follows by induction on these steps.
-/

namespace DotLang

/-- Neither a brace nor the end of the text. -/
def Token.isInner : Token → Bool
  | .openBrace | .closeBrace | .eof => false
  | _ => true

namespace Parser
open Parse

section
variable (limit : Nat)

/-- From one parser to the other tokens are passed, and groups where fewer bodies than `limit` are open. The brace
that closes the body around may be passed as the last one. -/
inductive Leads : (closed : Bool) → Parser → Parser → Prop
  | refl (p : Parser) : Leads false p p
  | pass {closed : Bool} {p q r : Parser} (ht : p.token.isInner = true) (ha : advance p = .ok () q)
    (h : Leads closed q r) : Leads closed p r
  | group {closed : Bool} {p q r s : Parser} {notes : List Note} (ht : p.token = .openBrace) (hd : p.depth < limit)
    (ha : advance p = .ok () q) (hb : Leads true { q with depth := q.depth + 1 } r)
    (h : Leads closed { r with depth := r.depth - 1, notes := r.notes ++ notes } s) : Leads closed p s
  | close {p q : Parser} (ht : p.token = .closeBrace) (ha : advance p = .ok () q) : Leads true p q

/-- From the first parser a run comes to the failure, and leaves the second. -/
inductive Halts : Parser → Error → Parser → Prop
  | lexical {p q : Parser} {error : Error} (hne : p.token ≠ .eof) (ha : advance p = .error error q) : Halts p error q
  | rejected (p : Parser) (wanted : Expectation) : Halts p (.unexpected p.token.describe wanted p.loc) p
  | wrongOperator {p : Parser} {directed : Bool} (ht : p.token = .edgeOp (!directed)) :
    Halts p (.semantic (.wrongEdgeOp directed) p.loc) p
  | unkept {p q : Parser} (fault : AttributeFault) (h : Leads limit false p q) :
    Halts p (.attribute fault (some p.loc)) q
  | behind {p q r : Parser} {error : Error} (h : Leads limit false p q) (hh : Halts q error r) : Halts p error r
  | within {p q r : Parser} {error : Error} (ht : p.token = .openBrace) (hd : p.depth < limit)
    (ha : advance p = .ok () q) (hh : Halts { q with depth := q.depth + 1 } error r) : Halts p error r

end

section
variable {limit : Nat} {p q r : Parser}

theorem Leads.trans {closed : Bool} (h : p.Leads limit false q) (h' : q.Leads limit closed r) :
    p.Leads limit closed r := by
  generalize hf : false = start at h
  induction h with
  | refl => exact h'
  | pass ht ha _ ih => exact .pass ht ha (ih h' hf)
  | group ht hd ha hb _ _ ih => exact .group ht hd ha hb (ih h' hf)
  | close => cases hf

theorem Leads.advance (h : p.Leads limit false q) (ht : q.token.isInner = true) (ha : advance q = .ok () r) :
    p.Leads limit false r :=
  h.trans (.pass ht ha (.refl r))

end

/-- The brace that opens the body of a document is passed, and no other in front of it. -/
def Enters (p r : Parser) : Prop := ∃ q, p.Leads 0 false q ∧ q.token = .openBrace ∧ advance q = .ok () r

/-- The body of a document is passed, with the brace that closes it. -/
def Spans (p s : Parser) : Prop := ∃ r, p.Enters r ∧ r.Leads maxNesting true s

/-- A document is broken off in front of its body, or inside. -/
def BreaksOff (p : Parser) (error : Error) (s : Parser) : Prop :=
  p.Halts 0 error s ∨ ∃ r, p.Enters r ∧ r.Halts maxNesting error s

end Parser

namespace Parse

section
variable {α β : Type} {limit : Nat} {closed : Bool} {start p : Parser}

/-- From `start`, which has led to `p`, the action leads on or comes to a failure. -/
def Goes (limit : Nat) (closed : Bool) (start : Parser) (x : Parse α) (p : Parser) : Prop :=
  match x p with
  | .ok _ q => start.Leads limit closed q
  | .error error q => start.Halts limit error q

theorem Goes.bind {x : Parse α} {f : α → Parse β} (hx : Goes limit false start x p)
    (hf : ∀ a q, start.Leads limit false q → Goes limit closed start (f a) q) :
    Goes limit closed start (x >>= f) p := by
  unfold Goes at hx
  cases h : x p with
  | ok a q =>
    rw [h] at hx
    unfold Goes
    rw [bind_of_ok h]
    exact hf a q hx
  | error error q =>
    rw [h] at hx
    unfold Goes
    rw [bind_of_error h]
    exact hx

/-- What leads on from `p` leads on from where `p` comes from. -/
theorem Goes.behind {x : Parse α} (h : start.Leads limit false p) (hx : Goes limit closed p x p) :
    Goes limit closed start x p := by
  unfold Goes at hx ⊢
  cases hr : x p with
  | ok a q =>
    rw [hr] at hx
    exact h.trans hx
  | error error q =>
    rw [hr] at hx
    exact .behind h hx

theorem Goes.token {f : Token → Parse β} (h : Goes limit closed start (f p.token) p) :
    Goes limit closed start (Parse.token >>= f) p := h

theorem Goes.get {f : Parser → Parse β} (h : Goes limit closed start (f p) p) :
    Goes limit closed start (get >>= f) p := h

theorem Goes.fuel {f : Nat → Parse β} (h : Goes limit closed start (f (p.lexer.rest.length + 2)) p) :
    Goes limit closed start (Parse.fuel >>= f) p := h

theorem goes_pure (h : start.Leads limit closed p) (a : α) : Goes limit closed start (pure a) p := h

theorem goes_unexpected (h : start.Leads limit false p) (wanted : Expectation) :
    Goes limit closed start (unexpected wanted : Parse α) p :=
  .behind h (.rejected p wanted)

theorem Goes.unexpected {f : α → Parse β} (h : start.Leads limit false p) (wanted : Expectation) :
    Goes limit closed start (Parse.unexpected wanted >>= f) p :=
  .behind h (.rejected p wanted)

theorem goes_advance (h : start.Leads limit false p) (ht : p.token.isInner = true) :
    Goes limit false start advance p := by
  unfold Goes
  cases ha : advance p with
  | ok _ q => exact h.advance ht ha
  | error error q =>
    refine .behind h (.lexical ?_ ha)
    rintro he
    rw [he] at ht
    cases ht

theorem Goes.advance {f : Unit → Parse β} (h : start.Leads limit false p) (ht : p.token.isInner = true)
    (hf : ∀ q, start.Leads limit false q → Goes limit closed start (f ()) q) :
    Goes limit closed start (Parse.advance >>= f) p :=
  (goes_advance h ht).bind fun _ => hf

theorem expect_of_token {token : Token} (ht : p.token = token) (wanted : Expectation) :
    expect token wanted p = Parse.advance p := by
  unfold expect
  rw [bind_token, if_pos ht]

theorem expect_of_ne {token : Token} (ht : p.token ≠ token) (wanted : Expectation) :
    expect token wanted p = Parse.unexpected wanted p := by
  unfold expect
  rw [bind_token, if_neg ht]

theorem goes_expect (h : start.Leads limit false p) {token : Token} (ht : token.isInner = true) (wanted : Expectation) :
    Goes limit false start (expect token wanted) p := by
  unfold expect
  apply Goes.token
  split
  · rename_i he
    exact goes_advance h (by rw [he, ht])
  · exact goes_unexpected h wanted

/-- An attribute that cannot be kept is reported at the position where the run set out. -/
theorem goes_ofEdit (h : start.Leads limit false p) (name : String) (value : AttrValue) (f : Attribute → α) :
    Goes limit false start (ofEdit start.loc ((Attribute.make name value).map f)) p := by
  have hfault (fault : AttributeFault) :
      Goes limit false start (ofEdit (α := α) start.loc (.error (.attribute fault none))) p :=
    .unkept fault h
  unfold Attribute.make
  split
  · exact hfault _
  · split
    · exact h
    · exact hfault _

/-! ## The parts of statements -/

theorem goes_concatenation {fuel : Nat} (h : start.Leads limit false p) (first : String) :
    Goes limit false start (concatenation fuel first) p := by
  induction fuel generalizing first p with
  | zero => exact goes_pure h _
  | succ fuel ih =>
    unfold concatenation
    apply Goes.token
    split
    · rename_i hplus
      apply Goes.advance h (by rw [hplus]; rfl)
      intro q hq
      apply Goes.token
      split
      · rename_i ht
        exact Goes.advance hq (by rw [ht]; rfl) fun r hr => ih hr _
      · exact goes_unexpected hq _
    · exact goes_pure h _

theorem goes_ident (h : start.Leads limit false p) : Goes limit false start ident p := by
  unfold ident
  apply Goes.token
  split <;> rename_i ht
  · exact Goes.advance h (by rw [ht]; rfl) fun q hq => goes_pure hq _
  · exact Goes.advance h (by rw [ht]; rfl) fun q hq => goes_pure hq _
  · exact Goes.advance h (by rw [ht]; rfl) fun q hq => goes_pure hq _
  · apply Goes.advance h (by rw [ht]; rfl)
    intro q hq
    apply Goes.fuel
    exact (goes_concatenation hq _).bind fun _ r hr => goes_pure hr _
  · exact goes_unexpected h _

theorem goes_name (h : start.Leads limit false p) : Goes limit false start name p := by
  unfold name
  apply Goes.token
  split
  · exact (goes_ident h).bind fun _ q hq => goes_pure hq _
  · exact goes_pure h _

theorem goes_value (h : start.Leads limit false p) : Goes limit false start value p := by
  unfold value
  apply Goes.token
  split
  · exact (goes_ident h).bind fun _ q hq => goes_pure hq _
  · exact goes_unexpected h _

theorem isInner_of_compassOf? {t : Token} {compass : Compass} (h : compassOf? t = some compass) :
    t.isInner = true := by
  cases t <;> first | rfl | cases h

theorem goes_endpoint (h : start.Leads limit false p) (node : String) :
    Goes limit false start (endpoint node) p := by
  unfold endpoint
  apply Goes.token
  split
  · rename_i hcolon
    apply Goes.advance h (by rw [hcolon]; rfl)
    intro q hq
    apply Goes.token
    apply (goes_ident hq).bind
    intro port r hr
    apply Goes.token
    split
    · rename_i hside
      apply Goes.advance hr (by rw [hside]; rfl)
      intro s hs
      apply Goes.token
      split
      · rename_i hc
        exact Goes.advance hs (isInner_of_compassOf? hc) fun t ht => goes_pure ht _
      · exact goes_unexpected hs _
    · split
      · exact goes_pure hr _
      · exact goes_pure hr _
  · exact goes_pure h _

theorem goes_assignment (h : start.Leads limit false p) (attrs : Attributes) :
    Goes limit false start (assignment attrs) p := by
  -- A failure may point back at the name, where the run of the assignment sets out.
  apply Goes.behind h
  unfold assignment
  apply Goes.get
  apply (goes_ident (.refl p)).bind
  intro name q hq
  apply (goes_expect hq rfl _).bind
  intro _ r hr
  apply (goes_value hr).bind
  intro v s hs
  apply (goes_ofEdit hs _ _ _).bind
  intro attrs t ht
  apply Goes.token
  apply Goes.token
  split
  · rename_i hsep
    refine Goes.advance ht ?_ fun u hu => goes_pure hu _
    rcases hsep with hsep | hsep <;> rw [hsep] <;> rfl
  · exact goes_pure ht _

theorem goes_attributeList {fuel : Nat} (h : start.Leads limit false p) (attrs : Attributes) :
    Goes limit false start (attributeList fuel attrs) p := by
  induction fuel generalizing attrs p with
  | zero => exact goes_pure h _
  | succ fuel ih =>
    unfold attributeList
    apply Goes.token
    split
    · rename_i hclose
      apply Goes.advance h (by rw [hclose]; rfl)
      intro q hq
      apply Goes.token
      split
      · rename_i hopen
        exact Goes.advance hq (by rw [hopen]; rfl) fun r hr => ih hr _
      · exact goes_pure hq _
    · apply Goes.token
      split
      · exact (goes_assignment h attrs).bind fun _ q hq => ih hq _
      · exact goes_unexpected h _

theorem goes_attributes (h : start.Leads limit false p) : Goes limit false start attributes p := by
  unfold attributes
  apply Goes.token
  split
  · rename_i hopen
    exact Goes.advance h (by rw [hopen]; rfl) fun q hq => Goes.fuel (goes_attributeList hq _)
  · exact goes_pure h _

end

/-! ## Statements -/

/-- What reads the rest of a body leads behind the brace that closes it, or comes to a failure. -/
def GoesBodies (body : Builder → Parse Builder) : Prop :=
  ∀ (builder : Builder) (p : Parser), Goes maxNesting true p (body builder) p

section
variable {body : Builder → Parse Builder} (hbody : GoesBodies body) {start p : Parser}
  (h : start.Leads maxNesting false p)
include hbody h

theorem goes_bracedGroup (builder : Builder) (name : String) :
    Goes maxNesting false start (bracedGroup body builder name) p := by
  unfold bracedGroup
  apply Goes.token
  apply Goes.get
  split
  · exact Goes.unexpected h _
  · rename_i hn
    dsimp only
    by_cases ht : p.token = .openBrace
    · have hd : p.depth < maxNesting := Nat.lt_of_not_le fun hd => hn ⟨ht, hd⟩
      have hexpect := expect_of_token ht .openBrace
      unfold Goes
      cases ha : advance p with
      | error error q =>
        rw [bind_of_error (hexpect.trans ha)]
        exact .behind h (.lexical (by rw [ht]; nofun) ha)
      | ok _ q =>
        rw [bind_of_ok (hexpect.trans ha), bind_modify]
        -- The body sets out with one body more that is open.
        have hb := hbody (builder.openSubgraph name) { q with depth := q.depth + 1 }
        unfold Goes at hb
        cases hr : body (builder.openSubgraph name) { q with depth := q.depth + 1 } with
        | error error r =>
          rw [hr] at hb
          rw [bind_of_error hr]
          exact .behind h (.within ht hd ha hb)
        | ok result r =>
          rw [hr] at hb
          rw [bind_of_ok hr, bind_modify, bind_note]
          exact h.trans (.group ht hd ha hb (.refl _))
    · unfold Goes
      rw [bind_of_error (expect_of_ne ht .openBrace)]
      exact .behind h (.rejected p _)

theorem goes_subgraph (builder : Builder) : Goes maxNesting false start (subgraph body builder) p := by
  unfold subgraph
  apply Goes.token
  split
  · rename_i hk
    apply Goes.advance h (by rw [hk]; rfl)
    intro q hq
    apply (goes_name hq).bind
    intro name r hr
    apply Goes.token
    split
    · exact goes_pure hr _
    · exact goes_bracedGroup hbody hr builder name
  · exact goes_bracedGroup hbody h builder ""

theorem goes_operand (builder : Builder) : Goes maxNesting false start (operand body builder) p := by
  have hgroup : Goes maxNesting false start
      (subgraph body builder >>= fun found => pure (Operand.group found.1, found.2)) p :=
    (goes_subgraph hbody h builder).bind fun _ q hq => goes_pure hq _
  unfold operand
  apply Goes.token
  split
  · exact hgroup
  · exact hgroup
  · split
    · apply (goes_ident h).bind
      intro id q hq
      exact (goes_endpoint hq _).bind fun _ r hr => goes_pure hr _
    · exact goes_unexpected h _

/-- Of the two edge operators, the one that is not allowed is in hand when a failure tells of it. -/
theorem goes_chainFrom {fuel : Nat} (builder : Builder) (chain : List Operand) :
    Goes maxNesting false start (chainFrom body fuel builder chain) p := by
  induction fuel generalizing builder chain p with
  | zero => exact goes_pure h _
  | succ fuel ih =>
    unfold chainFrom
    apply Goes.token
    split
    · rename_i hop
      apply Goes.token
      split
      · rename_i hne
        have hwrong : p.token = .edgeOp (!builder.kind.directed) := by
          revert hop hne
          cases p.token <;> cases builder.kind.directed <;> simp [Token.isEdgeOp, Token.edgeOp]
        exact .behind h (.wrongOperator hwrong)
      · have hinner : p.token.isInner = true := by
          revert hop
          cases p.token <;> simp [Token.isEdgeOp, Token.isInner]
        apply Goes.advance h hinner
        intro q hq
        exact (goes_operand hbody hq builder).bind fun _ r hr => ih hr _ _
    · exact goes_pure h _

theorem goes_edgeStatement (builder : Builder) (first : Operand) :
    Goes maxNesting false start (edgeStatement body builder first) p := by
  unfold edgeStatement
  apply Goes.fuel
  apply (goes_chainFrom hbody h builder _).bind
  intro found q hq
  exact (goes_attributes hq).bind fun _ r hr => goes_pure hr _

omit hbody in
theorem goes_defaultsStatement (ht : p.token.isInner = true) (builder : Builder) (category : Category) :
    Goes maxNesting false start (defaultsStatement builder category) p := by
  unfold defaultsStatement
  apply Goes.advance h ht
  intro q hq
  apply Goes.token
  split
  · exact (goes_attributes hq).bind fun _ r hr => goes_pure hr _
  · exact goes_unexpected hq _

theorem goes_idStatement (builder : Builder) : Goes maxNesting false start (idStatement body builder) p := by
  apply Goes.behind h
  unfold idStatement
  apply Goes.get
  apply (goes_ident (.refl p)).bind
  intro id q hq
  apply Goes.token
  split
  · rename_i hequal
    apply Goes.advance hq (by rw [hequal]; rfl)
    intro r hr
    apply (goes_value hr).bind
    intro v s hs
    rw [Builder.setAttribute_eq]
    exact goes_ofEdit hs _ _ _
  · apply (goes_endpoint hq _).bind
    intro node r hr
    apply Goes.token
    split
    · exact goes_edgeStatement hbody hr builder _
    · exact (goes_attributes hr).bind fun _ s hs => goes_pure hs _

theorem goes_groupStatement (builder : Builder) :
    Goes maxNesting false start (groupStatement body builder) p := by
  unfold groupStatement
  apply (goes_subgraph hbody h builder).bind
  intro found q hq
  apply Goes.token
  split
  · exact goes_edgeStatement hbody hq _ _
  · exact goes_pure hq _

theorem goes_statement (builder : Builder) : Goes maxNesting false start (statement body builder) p := by
  unfold statement
  apply Goes.token
  split
  · rename_i ht
    exact goes_defaultsStatement h (by rw [ht]; rfl) builder _
  · rename_i ht
    exact goes_defaultsStatement h (by rw [ht]; rfl) builder _
  · rename_i ht
    exact goes_defaultsStatement h (by rw [ht]; rfl) builder _
  · exact goes_groupStatement hbody h builder
  · exact goes_groupStatement hbody h builder
  · split
    · exact goes_idStatement hbody h builder
    · exact goes_unexpected h _

end

theorem goes_body (fuel : Nat) : GoesBodies (body fuel) := by
  induction fuel with
  | zero => exact fun _ p => goes_unexpected (.refl p) _
  | succ fuel ih =>
    intro builder p
    unfold body
    apply Goes.token
    split
    · rename_i ht
      unfold Goes
      cases ha : advance p with
      | ok _ q =>
        rw [bind_of_ok ha]
        exact .close ht ha
      | error error q =>
        rw [bind_of_error ha]
        exact .lexical (by rw [ht]; nofun) ha
    · exact goes_unexpected (.refl p) _
    · apply (goes_statement ih (.refl p) builder).bind
      intro result q hq
      apply Goes.token
      split
      · rename_i hsemi
        exact Goes.advance hq (by rw [hsemi]; rfl) fun r hr => (ih _ r).behind hr
      · exact (ih _ q).behind hq

/-! ## Documents -/

section
variable {α β : Type} {start p : Parser}

theorem goes_directedness {limit : Nat} (h : start.Leads limit false p) :
    Goes limit false start directedness p := by
  unfold directedness
  apply Goes.token
  split
  · rename_i ht
    exact Goes.advance h (by rw [ht]; rfl) fun q hq => goes_pure hq _
  · rename_i ht
    exact Goes.advance h (by rw [ht]; rfl) fun q hq => goes_pure hq _
  · exact goes_unexpected h _

theorem Goes.result {limit : Nat} {closed : Bool} {x : Parse α} (hx : Goes limit closed start x p) (f : α → β) :
    Goes limit closed start (x >>= fun a => pure (f a)) p := by
  unfold Goes at hx
  cases h : x p with
  | ok a q =>
    rw [h] at hx
    unfold Goes
    rw [bind_of_ok h]
    exact hx
  | error error q =>
    rw [h] at hx
    unfold Goes
    rw [bind_of_error h]
    exact hx

/-- From `start`, which has led to `p`, the action passes the body of a document or breaks off. -/
def GoesThrough (start : Parser) (x : Parse α) (p : Parser) : Prop :=
  match x p with
  | .ok _ s => start.Spans s
  | .error error s => start.BreaksOff error s

theorem GoesThrough.bind {x : Parse α} {f : α → Parse β} (hx : Goes 0 false start x p)
    (hf : ∀ a q, start.Leads 0 false q → GoesThrough start (f a) q) : GoesThrough start (x >>= f) p := by
  unfold Goes at hx
  cases h : x p with
  | ok a q =>
    rw [h] at hx
    unfold GoesThrough
    rw [bind_of_ok h]
    exact hf a q hx
  | error error q =>
    rw [h] at hx
    unfold GoesThrough
    rw [bind_of_error h]
    exact Or.inl hx

theorem GoesThrough.token {f : Token → Parse β} (h : GoesThrough start (f p.token) p) :
    GoesThrough start (Parse.token >>= f) p := h

theorem goesThrough_braces {f : Unit → Parse β} (h : start.Leads 0 false p)
    (hf : ∀ r, Goes maxNesting true r (f ()) r) : GoesThrough start (expect .openBrace .openBrace >>= f) p := by
  unfold GoesThrough
  by_cases ht : p.token = .openBrace
  · have hexpect := expect_of_token ht .openBrace
    cases ha : advance p with
    | error error q =>
      rw [bind_of_error (hexpect.trans ha)]
      exact Or.inl (.behind h (.lexical (by rw [ht]; nofun) ha))
    | ok _ r =>
      rw [bind_of_ok (hexpect.trans ha)]
      have hbody := hf r
      unfold Goes at hbody
      cases hr : f () r with
      | error error s =>
        rw [hr] at hbody
        exact Or.inr ⟨r, ⟨p, h, ht, ha⟩, hbody⟩
      | ok b s =>
        rw [hr] at hbody
        exact ⟨r, ⟨p, h, ht, ha⟩, hbody⟩
  · rw [bind_of_error (expect_of_ne ht .openBrace)]
    exact Or.inl (.behind h (.rejected p _))

theorem goes_graph (p : Parser) : GoesThrough p graph p := by
  -- What follows the keyword `strict`, or stands without it.
  have key (strict : Bool) {q : Parser} (hq : p.Leads 0 false q) : GoesThrough p (do
      let directed ← directedness
      let name ← name
      expect .openBrace .openBrace
      let builder ← body (← fuel) (Builder.new name ⟨directed, strict⟩).enterScope
      return builder.leaveScope.graph) q := by
    apply GoesThrough.bind (goes_directedness hq)
    intro directed r hr
    apply GoesThrough.bind (goes_name hr)
    intro name s hs
    exact goesThrough_braces hs fun t => Goes.fuel ((goes_body _ _ t).result _)
  unfold graph
  apply GoesThrough.token
  dsimp only
  split
  · rename_i ht
    exact GoesThrough.bind (goes_advance (.refl p) (by rw [ht]; rfl)) fun _ q hq => key _ hq
  · exact key _ (.refl p)

/-- A document is read to its end, or the first token is not there, or the document is broken off, or there is more
behind it. -/
theorem goes_document (p : Parser) : match document p with
    | .ok _ t => ∃ q s notes, advance p = .ok () q ∧ q.Spans s ∧ s.token = .eof ∧
      t = { s with notes := s.notes ++ notes }
    | .error error t => advance p = .error error t ∨ ∃ q, advance p = .ok () q ∧
      (q.BreaksOff error t ∨ q.Spans t ∧ error = .unexpected t.token.describe .endOfInput t.loc) := by
  unfold document
  cases ha : advance p with
  | error error t =>
    rw [bind_of_error ha]
    exact Or.inl rfl
  | ok _ q =>
    rw [bind_of_ok ha]
    have hgraph := goes_graph q
    unfold GoesThrough at hgraph
    cases hg : graph q with
    | error error t =>
      rw [hg] at hgraph
      rw [bind_of_error hg]
      exact Or.inr ⟨q, rfl, Or.inl hgraph⟩
    | ok g s =>
      rw [hg] at hgraph
      rw [bind_of_ok hg, bind_token]
      dsimp only
      by_cases ht : s.token = .eof
      · rw [if_neg (not_not.2 ht), bind_note]
        exact ⟨q, s, _, rfl, hgraph, ht, rfl⟩
      · rw [if_pos ht]
        exact Or.inr ⟨q, rfl, Or.inr ⟨hgraph, rfl⟩⟩

end

end Parse

end DotLang
