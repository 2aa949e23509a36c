import DotLang.Proofs.Grammar.Effects
import DotLang.Proofs.Positions

/-!
# Failures point at what is wrong

While a parser runs, it has in hand the token that was read last, at the position of that token. Every failure
of a run points at a place in the text: where the lexer stopped, at the token in hand, which is then the one that
is rejected, or at the name of an attribute that cannot be kept.
-/

namespace DotLang

/-- The token stands at `loc`, and `rest` is the text behind it. The end of the text stands at the end only. -/
def Token.StandsAt (text : List Char) (loc : Location) (rest : List Char) (token : Token) : Prop :=
  ∃ passed lexeme, text = passed ++ lexeme ++ rest ∧ Spells lexeme token ∧ loc = .behind passed ∧
    (token = .eof → rest = [])

/-- The token in hand was read last, and stands where the parser says. -/
structure Holding (text : List Char) (p : Parser) : Prop where
  standsAt : p.token.StandsAt text p.loc p.lexer.rest
  placed : ∃ passed, Placed text passed p.lexer

/-- What a failure says of the text and of the parser that it leaves. -/
inductive Reports (text : List Char) (p : Parser) : Error → Prop
  | lexical (fault : LexicalFault) {loc : Location} (h : loc.IsIn text) : Reports text p (.lexical fault loc)
  | rejected (wanted : Expectation) (h : Holding text p) : Reports text p (.unexpected p.token.describe wanted p.loc)
  | wrongOperator {directed : Bool} (ht : p.token = .edgeOp (!directed)) (h : Holding text p) :
    Reports text p (.semantic (.wrongEdgeOp directed) p.loc)
  | unkept (fault : AttributeFault) {loc : Location} (h : loc.IsIn text) : Reports text p (.attribute fault (some loc))

section
variable {text : List Char} {p : Parser}

theorem Token.StandsAt.isIn {token : Token} {loc : Location} {rest : List Char} (h : token.StandsAt text loc rest) :
    loc.IsIn text := by
  obtain ⟨passed, lexeme, ht, -, hl, -⟩ := h
  exact ⟨passed, lexeme ++ rest, by rw [ht, List.append_assoc], hl⟩

theorem Holding.isIn (h : Holding text p) : p.loc.IsIn text := h.standsAt.isIn

theorem Reports.isIn {error : Error} (h : Reports text p error) : ∃ loc, error.location? = some loc ∧ loc.IsIn text := by
  cases h with
  | lexical fault h => exact ⟨_, rfl, h⟩
  | rejected wanted h => exact ⟨_, rfl, h.isIn⟩
  | wrongOperator ht h => exact ⟨_, rfl, h.isIn⟩
  | unkept fault h => exact ⟨_, rfl, h⟩

end

namespace Parse

section
variable {text : List Char} {α : Type} {p : Parser}

/-- The action keeps hold of a token; or it fails and says so, and the lexer is where it stopped. -/
def Keeps (text : List Char) (x : Parse α) (p : Parser) : Prop :=
  match x p with
  | .ok _ q => Holding text q
  | .error error q => Reports text q error ∧ ∃ passed, Placed text passed q.lexer

theorem keeps_advance (h : ∃ passed, Placed text passed p.lexer) : Keeps text advance p := by
  obtain ⟨passed, h⟩ := h
  have hnext := h.next
  unfold Keeps advance
  generalize p.lexer.next = found at hnext
  obtain ⟨result, lexer⟩ := found
  cases hnext with
  | token hs he hp => exact ⟨⟨_, _, hp.text, hs, rfl, he⟩, _, hp⟩
  | failure fault hp => exact ⟨.lexical fault hp.isIn, _, hp⟩

theorem holding_of_advance {q : Parser} (h : ∃ passed, Placed text passed p.lexer) (ha : advance p = .ok () q) :
    Holding text q := by
  have hkeeps := keeps_advance h
  unfold Keeps at hkeeps
  rwa [ha] at hkeeps

theorem reports_of_advance {q : Parser} {error : Error} (h : ∃ passed, Placed text passed p.lexer)
    (ha : advance p = .error error q) : Reports text q error ∧ ∃ passed, Placed text passed q.lexer := by
  have hkeeps := keeps_advance h
  unfold Keeps at hkeeps
  rwa [ha] at hkeeps

end

end Parse

/-! ## Documents -/

namespace Parser
open Parse

section
variable {text : List Char} {limit : Nat} {p q : Parser}

theorem Leads.holding {closed : Bool} (h : p.Leads limit closed q) (hp : Holding text p) : Holding text q := by
  induction h with
  | refl => exact hp
  | pass _ ha _ ih => exact ih (holding_of_advance hp.placed ha)
  | group _ _ ha _ _ ihb ih =>
    have hq := holding_of_advance hp.placed ha
    have hr := ihb ⟨hq.standsAt, hq.placed⟩
    exact ih ⟨hr.standsAt, hr.placed⟩
  | close _ ha => exact holding_of_advance hp.placed ha

theorem Halts.reports {error : Error} (h : p.Halts limit error q) (hp : Holding text p) :
    Reports text q error ∧ ∃ passed, Placed text passed q.lexer := by
  induction h with
  | lexical _ ha => exact reports_of_advance hp.placed ha
  | rejected p wanted => exact ⟨.rejected wanted hp, hp.placed⟩
  | wrongOperator ht => exact ⟨.wrongOperator ht hp, hp.placed⟩
  | unkept fault h => exact ⟨.unkept fault hp.isIn, (h.holding hp).placed⟩
  | behind h _ ih => exact ih (h.holding hp)
  | within _ _ ha _ ih =>
    have hq := holding_of_advance hp.placed ha
    exact ih ⟨hq.standsAt, hq.placed⟩

theorem Enters.holding (h : p.Enters q) (hp : Holding text p) : Holding text q := by
  obtain ⟨r, hr, -, ha⟩ := h
  exact holding_of_advance (hr.holding hp).placed ha

theorem Spans.holding (h : p.Spans q) (hp : Holding text p) : Holding text q := by
  obtain ⟨r, hr, hb⟩ := h
  exact hb.holding (hr.holding hp)

theorem BreaksOff.reports {error : Error} (h : p.BreaksOff error q) (hp : Holding text p) :
    Reports text q error ∧ ∃ passed, Placed text passed q.lexer := by
  rcases h with h | ⟨r, hr, h⟩
  · exact h.reports hp
  · exact h.reports (hr.holding hp)

end

end Parser

namespace Parse

/-- The token in hand may be stale after a failure; the first step replaces it. -/
theorem keeps_document {text : List Char} {p : Parser} (h : ∃ passed, Placed text passed p.lexer) :
    Keeps text document p := by
  have hgoes := goes_document p
  unfold Keeps
  cases hd : document p with
  | ok g t =>
    rw [hd] at hgoes
    obtain ⟨q, s, notes, ha, hs, -, rfl⟩ := hgoes
    have hspans := hs.holding (holding_of_advance h ha)
    exact ⟨hspans.standsAt, hspans.placed⟩
  | error error t =>
    rw [hd] at hgoes
    rcases hgoes with ha | ⟨q, ha, hb | ⟨hs, rfl⟩⟩
    · exact reports_of_advance h ha
    · exact hb.reports (holding_of_advance h ha)
    · have hspans := hs.holding (holding_of_advance h ha)
      exact ⟨.rejected _ hspans, hspans.placed⟩

end Parse

/-! ## Runs -/

/-- The parsers that calls lead to, each of which reads a token or a document, or fails to. -/
inductive Parser.Reached (text : String) : Parser → Prop
  | start : Reached text (.ofString text)
  | lex {parser : Parser} (h : Reached text parser) : Reached text (parser.run Parse.advance).2
  | process {parser : Parser} (h : Reached text parser) : Reached text parser.process.2

/-- The lexer of a parser goes on from where it was, and a failure points into the text. -/
theorem Parse.Keeps.run {text : List Char} {α : Type} {p : Parser} {x : Parse α} (h : Keeps text x p) :
    (∃ passed, Placed text passed (p.run x).2.lexer) ∧
      ∀ error, (p.run x).1 = .error error → Reports text (p.run x).2 error := by
  unfold Keeps at h
  unfold Parser.run EStateM.run
  cases hx : x p with
  | ok a q =>
    rw [hx] at h
    exact ⟨h.placed, nofun⟩
  | error error q =>
    rw [hx] at h
    refine ⟨h.2, ?_⟩
    rintro other he
    obtain rfl : error = other := Except.error.inj he
    exact h.1

theorem Parser.Reached.placed {text : String} {parser : Parser} (h : Reached text parser) :
    ∃ passed, Placed text.toList passed parser.lexer := by
  induction h with
  | start => exact ⟨[], placed_ofString text⟩
  | lex _ ih => exact (Parse.keeps_advance ih).run.1
  | process _ ih => exact (Parse.keeps_document ih).run.1

/-- Wherever a lexer is called, it is at the position behind what it has passed, which only grows, and a token
stands at the position that is given with it. Whatever calls were made before, a run that fails points at a place
in the text; and one that rejects a token points at that token, behind which nothing has been read. -/
theorem positions_exact (text : String) :
    (∀ calls : Nat, let lexer := (Lexer.ofString text).moved calls
      (∃ passed, text.toList = passed ++ lexer.rest ∧ lexer.loc = .behind passed) ∧
        lexer.loc.offset ≤ byteLength text.toList ∧ lexer.loc.offset ≤ lexer.next.2.loc.offset ∧
        ∀ token loc, lexer.next.1 = .ok (token, loc) → token.StandsAt text.toList loc lexer.next.2.rest) ∧
    ∀ parser, Parser.Reached text parser → ∀ error after, parser.process = (.error error, after) →
      (∃ loc, error.location? = some loc ∧ loc.IsIn text.toList) ∧
        (∀ found wanted loc, error = .unexpected found wanted loc →
          ∃ token : Token, token.StandsAt text.toList loc after.lexer.rest ∧ found = token.describe) ∧
        ∀ fault loc, error = .semantic fault loc → ∃ directed,
          (Token.edgeOp (!directed)).StandsAt text.toList loc after.lexer.rest ∧ fault = .wrongEdgeOp directed := by
  constructor
  · intro calls lexer
    obtain ⟨passed, h⟩ : ∃ passed, Placed text.toList passed lexer := placed_moved text calls
    obtain ⟨more, hmore⟩ := h.next.placed
    refine ⟨⟨passed, h.text, h.loc⟩, ?_, ?_, ?_⟩
    · rw [h.loc, h.text, byteLength_append]
      exact Nat.le_add_right ..
    · rw [h.loc, hmore.loc]
      show byteLength passed ≤ byteLength (passed ++ more)
      rw [byteLength_append]
      exact Nat.le_add_right ..
    · intro token loc ht
      have hnext := h.next
      rw [ht] at hnext
      cases hnext with
      | token hs he hp => exact ⟨_, _, hp.text, hs, rfl, he⟩
  · intro parser hr error after he
    have hreports : Reports text.toList after error := by
      have hrun := (Parse.keeps_document hr.placed).run.2 error
      rw [show parser.run Parse.document = (.error error, after) from he] at hrun
      exact hrun rfl
    refine ⟨hreports.isIn, ?_, ?_⟩
    · rintro found wanted loc rfl
      cases hreports with
      | rejected _ h => exact ⟨after.token, h.standsAt, rfl⟩
    · rintro fault loc rfl
      cases hreports with
      | wrongOperator ht h => exact ⟨_, ht ▸ h.standsAt, rfl⟩

/-- The arrow is the wrong operator, on the second line of a text that breaks its lines in three ways. -/
def arrowText : String := "graph \x7b // a\r\n a -> b\n\r\x7d"

theorem positions_exact_arrowText :
    (((Lexer.ofString arrowText).moved 2).next.1 = .ok (.identifier "a", ⟨15, 2, 2⟩) ∧
      (Token.identifier "a").StandsAt arrowText.toList ⟨15, 2, 2⟩ ((Lexer.ofString arrowText).moved 2).next.2.rest) ∧
    ∃ after, (Parser.ofString arrowText).process = (.error (.semantic (.wrongEdgeOp false) ⟨17, 2, 4⟩), after) ∧
      Token.arrow.StandsAt arrowText.toList ⟨17, 2, 4⟩ after.lexer.rest := by
  constructor
  · have h : ((Lexer.ofString arrowText).moved 2).next.1 = .ok (.identifier "a", ⟨15, 2, 2⟩) := by
      rfl
    exact ⟨h, ((positions_exact arrowText).1 2).2.2.2 _ _ h⟩
  · have h : (match (Parser.ofString arrowText).process.1 with
        | .error error => decide (error = .semantic (.wrongEdgeOp false) ⟨17, 2, 4⟩)
        | .ok _ => false) = true := by
      decide +kernel
    generalize hp : (Parser.ofString arrowText).process = run at h
    obtain ⟨result, after⟩ := run
    cases result with
    | ok graph => cases h
    | error error =>
      obtain rfl := of_decide_eq_true h
      obtain ⟨directed, hs, hf⟩ := ((positions_exact arrowText).2 _ .start _ _ hp).2.2 _ _ rfl
      cases hf
      exact ⟨after, rfl, hs⟩

end DotLang
