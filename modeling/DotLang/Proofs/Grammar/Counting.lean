import DotLang.Proofs.Grammar.Acceptance
import DotLang.Proofs.Grammar.Boundaries
import DotLang.Proofs.Grammar.Effects
import DotLang.Proofs.Grammar.Reading

/-!
# Bodies that stay open

A run counts a body where it opens and discounts it where it closes, so one that succeeds leaves the count as it was.
One that fails does not: the bodies that are open where it fails are counted from then on, in all runs that follow,
and so much less deep may bodies be nested in these.
-/

namespace DotLang

/-- The bodies of groups that are open behind tokens. The brace that opens the graph is not one of theirs. -/
def bodiesOpen (tokens : List Token) : Nat := tokens.count .openBrace - tokens.count .closeBrace - 1

theorem Lexer.lexical_of_next {lexer next : Lexer} {error : Error} (h : lexer.next = (.error error, next)) :
    ∃ fault loc, error = .lexical fault loc := by
  unfold Lexer.next at h
  split at h
  · cases h
    exact ⟨_, _, rfl⟩
  · dsimp only at h
    split at h
    · cases h
    · cases h
      exact ⟨_, _, rfl⟩

namespace Parser
open Parse

/-- What a failure leaves of the tokens: the one in hand and all behind it, of which a failure of the lexer is next. -/
def unpassed (parser : Parser) (error : Error) : List (Except Error Token) :=
  match error with
  | .lexical _ _ => [.ok parser.token, .error error]
  | _ => parser.ahead

/-! ## Braces in a run -/

section
variable {limit : Nat} {p q r : Parser}

theorem ne_of_isInner {t : Token} (ht : t.isInner = true) : t ≠ .eof ∧ t ≠ .openBrace ∧ t ≠ .closeBrace := by
  cases t <;> simp_all [Token.isInner]

theorem Leads.passes {closed : Bool} (h : p.Leads limit closed q) :
    ∃ ts, Passes p ts q ∧ ts.count .closeBrace = ts.count .openBrace + closed.toNat ∧
      (limit = 0 → ts.count .openBrace = 0) := by
  induction h with
  | refl p => exact ⟨[], .refl p, rfl, fun _ => rfl⟩
  | @pass closed p q r ht ha _ ih =>
    obtain ⟨ts, hp, hc⟩ := ih
    obtain ⟨heof, hopen, hclose⟩ := ne_of_isInner ht
    refine ⟨p.token :: ts, (passes_of_advance ha rfl heof).cons hp, ?_⟩
    rwa [List.count_cons_of_ne hopen, List.count_cons_of_ne hclose]
  | @group closed p q r s notes ht hd ha _ _ ihb ih =>
    obtain ⟨us, hus, hcu, -⟩ := ihb
    obtain ⟨ts, hts, hct, -⟩ := ih
    have hbody : Passes q us { r with depth := r.depth - 1, notes := r.notes ++ notes } := by
      refine ⟨hus.ahead, ?_⟩
      show r.depth - 1 = q.depth
      rw [show r.depth = q.depth + 1 from hus.depth, Nat.add_sub_cancel]
    have hopen := passes_of_advance ha ht (by simp)
    refine ⟨.openBrace :: (us ++ ts), hopen.cons (hbody.trans hts), ?_, ?_⟩
    · rw [List.count_cons_self, List.count_cons_of_ne (by simp), List.count_append, List.count_append, hcu, hct]
      simp only [Bool.toNat_true]
      omega
    · rintro rfl
      exact absurd hd (Nat.not_lt_zero _)
  | close ht ha => exact ⟨[.closeBrace], passes_of_advance ha ht (by simp), rfl, fun _ => rfl⟩

/-- A run from one parser to the other has failed behind the tokens, and left each body counted that is open there. -/
structure Stops (limit : Nat) (p : Parser) (ts : List Token) (error : Error) (q : Parser) : Prop where
  ahead : p.ahead = ts.map .ok ++ q.unpassed error
  depth : q.depth + ts.count .closeBrace = p.depth + ts.count .openBrace
  le : p.depth ≤ q.depth
  bound : p.depth ≤ limit → q.depth ≤ limit
  flat : limit = 0 → ts.count .openBrace = 0

theorem Stops.here {error : Error} (ha : p.ahead = q.unpassed error) (hd : q.depth = p.depth) :
    Stops limit p [] error q :=
  ⟨ha, by rw [hd]; rfl, Nat.le_of_eq hd.symm, by rw [hd]; exact id, fun _ => rfl⟩

theorem advance_error {error : Error} (ha : advance p = .error error q) :
    p.lexer.tokens = [.error error] ∧ q.unpassed error = [.ok p.token, .error error] ∧ q.depth = p.depth := by
  unfold advance at ha
  split at ha
  · cases ha
  · rename_i failure lexer hn
    cases ha
    obtain ⟨fault, loc, rfl⟩ := Lexer.lexical_of_next hn
    exact ⟨Lexer.tokens_of_error hn, rfl, rfl⟩

theorem stops_of_advance {error : Error} (hne : p.token ≠ .eof) (ha : advance p = .error error q) :
    Stops limit p [] error q := by
  obtain ⟨htokens, hleft, hdepth⟩ := advance_error ha
  refine .here ?_ hdepth
  unfold Parser.ahead
  rw [if_neg hne, htokens, hleft]

theorem Stops.behind {error : Error} {us : List Token} (h : p.Leads limit false q) (hs : Stops limit q us error r) :
    ∃ ts, Stops limit p (ts ++ us) error r := by
  obtain ⟨ts, hp, hc, hz⟩ := h.passes
  have hdepth := hs.depth
  rw [hp.depth] at hdepth
  refine ⟨ts, ?_, ?_, ?_, ?_, ?_⟩
  · rw [hp.ahead, hs.ahead, List.map_append, List.append_assoc]
  · rw [List.count_append, List.count_append, hc]
    simp only [Bool.toNat_false]
    omega
  · rw [← hp.depth]
    exact hs.le
  · rw [← hp.depth]
    exact hs.bound
  · intro hl
    rw [List.count_append, hz hl, hs.flat hl]

/-- The body that is open around the failure stays counted. -/
theorem Stops.within {error : Error} {ts : List Token} (hd : p.depth < limit) (hopen : Passes p [.openBrace] q)
    (hs : Stops limit { q with depth := q.depth + 1 } ts error r) : Stops limit p (.openBrace :: ts) error r := by
  have hdepth : r.depth + ts.count .closeBrace = q.depth + 1 + ts.count .openBrace := hs.depth
  have hle : q.depth + 1 ≤ r.depth := hs.le
  rw [hopen.depth] at hdepth hle
  refine ⟨?_, ?_, by omega, ?_, ?_⟩
  · rw [hopen.ahead]
    exact congrArg _ hs.ahead
  · rw [List.count_cons_self, List.count_cons_of_ne (by simp)]
    omega
  · intro _
    apply hs.bound
    show q.depth + 1 ≤ limit
    rw [hopen.depth]
    exact hd
  · rintro rfl
    exact absurd hd (Nat.not_lt_zero _)

theorem Halts.stops {error : Error} (h : p.Halts limit error q) : ∃ ts, Stops limit p ts error q := by
  induction h with
  | lexical hne ha => exact ⟨[], stops_of_advance hne ha⟩
  | rejected p wanted => exact ⟨[], .here rfl rfl⟩
  | wrongOperator ht => exact ⟨[], .here rfl rfl⟩
  | @unkept p q fault h =>
    obtain ⟨ts, hs⟩ := Stops.behind h (Stops.here (q := q) rfl rfl : Stops limit q [] (.attribute fault (some p.loc)) q)
    exact ⟨_, hs⟩
  | behind h _ ih =>
    obtain ⟨us, hs⟩ := ih
    obtain ⟨ts, hts⟩ := hs.behind h
    exact ⟨_, hts⟩
  | within ht hd ha _ ih =>
    obtain ⟨ts, hs⟩ := ih
    exact ⟨_, hs.within hd (passes_of_advance ha ht (by simp))⟩

/-! ## Documents -/

theorem Enters.passes (h : p.Enters q) : ∃ ts, Passes p (ts ++ [.openBrace]) q ∧ ts.count .openBrace = 0 ∧
    ts.count .closeBrace = 0 := by
  obtain ⟨r, hr, ht, ha⟩ := h
  obtain ⟨ts, hp, hc, hz⟩ := hr.passes
  have hopen := hz rfl
  exact ⟨ts, hp.trans (passes_of_advance ha ht (by simp)), hopen, by rw [hc, hopen]; rfl⟩

theorem bodiesOpen_entered {ts us : List Token} (ho : ts.count .openBrace = 0) (hc : ts.count .closeBrace = 0) :
    bodiesOpen (ts ++ [.openBrace] ++ us) = us.count .openBrace - us.count .closeBrace := by
  unfold bodiesOpen
  simp only [List.count_append, ho, hc, List.count_singleton_self]
  rw [show [Token.openBrace].count .closeBrace = 0 from rfl]
  omega

theorem Spans.passes (h : p.Spans q) : ∃ ts, Passes p ts q ∧ bodiesOpen ts = 0 := by
  obtain ⟨r, hr, hb⟩ := h
  obtain ⟨ts, hts, ho, hc⟩ := hr.passes
  obtain ⟨us, hus, hcu, -⟩ := hb.passes
  refine ⟨_, hts.trans hus, ?_⟩
  rw [bodiesOpen_entered ho hc, hcu]
  omega

theorem BreaksOff.stops {error : Error} (h : p.BreaksOff error q) :
    ∃ ts, p.ahead = ts.map .ok ++ q.unpassed error ∧ q.depth = p.depth + bodiesOpen ts ∧
      (p.depth ≤ maxNesting → q.depth ≤ maxNesting) := by
  rcases h with h | ⟨r, hr, h⟩
  · obtain ⟨ts, hs⟩ := h.stops
    have hopen := hs.flat rfl
    have hdepth := hs.depth
    have hle := hs.le
    have hnone : bodiesOpen ts = 0 := by
      unfold bodiesOpen
      rw [hopen, Nat.zero_sub, Nat.zero_sub]
    exact ⟨ts, hs.ahead, by omega, fun _ => by omega⟩
  · obtain ⟨ts, hts, ho, hc⟩ := hr.passes
    obtain ⟨us, hs⟩ := h.stops
    have hdepth := hs.depth
    have hle := hs.le
    rw [hts.depth] at hdepth hle
    refine ⟨ts ++ [.openBrace] ++ us, ?_, ?_, ?_⟩
    · rw [hts.ahead, hs.ahead, ← List.append_assoc, ← List.map_append]
    · rw [bodiesOpen_entered ho hc]
      omega
    · rw [← hts.depth]
      exact hs.bound

end

/-! ## Calls -/

theorem depth_of_accepted {p q : Parser} {graph : Graph} (h : p.process = (.ok graph, q)) : q.depth = p.depth := by
  have hgoes := goes_document p
  rw [run_ok.1 h] at hgoes
  obtain ⟨r, s, notes, ha, hs, -, rfl⟩ := hgoes
  obtain ⟨ts, hp, -⟩ := hs.passes
  exact hp.depth.trans (depth_of_advance ha)

theorem depth_of_rejected {p q : Parser} {error : Error} (h : p.process = (.error error, q)) :
    ∃ ts, (p.lexer.tokens = [.error error] ∧ ts = [] ∨ p.lexer.tokens = ts.map .ok ++ q.unpassed error) ∧
      q.depth = p.depth + bodiesOpen ts ∧ (p.depth ≤ maxNesting → q.depth ≤ maxNesting) := by
  have hgoes := goes_document p
  rw [run_error.1 h] at hgoes
  rcases hgoes with ha | ⟨r, ha, hb | ⟨hs, rfl⟩⟩
  · obtain ⟨htokens, -, hdepth⟩ := advance_error ha
    refine ⟨[], Or.inl ⟨htokens, rfl⟩, hdepth, ?_⟩
    rw [hdepth]
    exact id
  · obtain ⟨ts, hahead, hdepth, hbound⟩ := hb.stops
    rw [ahead_of_advance ha] at hahead
    rw [depth_of_advance ha] at hdepth hbound
    exact ⟨ts, Or.inr hahead, hdepth, hbound⟩
  · obtain ⟨ts, hp, hnone⟩ := hs.passes
    refine ⟨ts, Or.inr ?_, ?_, ?_⟩
    · rw [← ahead_of_advance ha]
      exact hp.ahead
    · rw [hp.depth, depth_of_advance ha, hnone]
      rfl
    · rw [hp.depth, depth_of_advance ha]
      exact id

/-- The tokens that a run has passed when it fails. -/
def passed (parser : Parser) (error : Error) (after : Parser) : List Token :=
  (parser.lexer.tokens.take (parser.lexer.tokens.length - (after.unpassed error).length)).filterMap Except.toOption

theorem passed_eq {p q : Parser} {error : Error} {ts : List Token}
    (h : p.lexer.tokens = [.error error] ∧ ts = [] ∨ p.lexer.tokens = ts.map .ok ++ q.unpassed error) :
    p.passed error q = ts := by
  unfold passed
  rcases h with ⟨h, rfl⟩ | h
  · have hpos : 1 ≤ (q.unpassed error).length := by
      cases error <;> simp [unpassed, Parser.ahead]
    rw [h, List.length_singleton, Nat.sub_eq_zero_of_le hpos]
    rfl
  · rw [h, List.length_append, Nat.add_sub_cancel, List.take_left, List.filterMap_map]
    exact List.filterMap_some

inductive Call
  | lex
  | process

def call (parser : Parser) : Call → Parser
  | .lex => (parser.run advance).2
  | .process => parser.process.2

/-- The bodies that are open where a call fails. -/
def leavesOpen (parser : Parser) : Call → Nat
  | .lex => 0
  | .process =>
    match parser.process with
    | (.ok _, _) => 0
    | (.error error, after) => bodiesOpen (parser.passed error after)

def after (parser : Parser) (calls : List Call) : Parser := calls.foldl call parser

/-- The bodies that are open where calls fail, one after the other. -/
def allLeftOpen : List Call → Parser → Nat
  | [], _ => 0
  | c :: calls, parser => parser.leavesOpen c + allLeftOpen calls (parser.call c)

theorem depth_call (p : Parser) (c : Call) : (p.call c).depth = p.depth + p.leavesOpen c ∧
    (p.depth ≤ maxNesting → (p.call c).depth ≤ maxNesting) := by
  cases c with
  | lex =>
    have hdepth : (p.run advance).2.depth = p.depth := Parser.depth_lexed 1 p
    exact ⟨hdepth, fun h => hdepth ▸ h⟩
  | process =>
    unfold call leavesOpen
    match h : p.process with
    | (.ok graph, q) =>
      have hdepth := depth_of_accepted h
      exact ⟨hdepth, fun hp => hdepth ▸ hp⟩
    | (.error error, q) =>
      obtain ⟨ts, hts, hdepth, hbound⟩ := depth_of_rejected h
      rw [← passed_eq hts] at hdepth
      exact ⟨hdepth, hbound⟩

theorem depth_after (calls : List Call) (p : Parser) : (p.after calls).depth = p.depth + allLeftOpen calls p ∧
    (p.depth ≤ maxNesting → (p.after calls).depth ≤ maxNesting) := by
  induction calls generalizing p with
  | nil => exact ⟨rfl, id⟩
  | cons c calls ih =>
    obtain ⟨hone, hbound⟩ := p.depth_call c
    obtain ⟨hrest, hbounds⟩ := ih (p.call c)
    refine ⟨?_, fun h => hbounds (hbound h)⟩
    show ((p.call c).after calls).depth = _
    rw [hrest, hone, allLeftOpen, Nat.add_assoc]

end Parser

/-! ## How deep bodies are nested -/

namespace Grammar

mutual
def Group.height : Group → Nat
  | .braced _ body => body.height + 1
  | .reference _ => 0

def Body.height : Body → Nat
  | .nil => 0
  | .cons stmt _ rest => max stmt.height rest.height

def Operand.height : Operand → Nat
  | .node _ => 0
  | .group group => group.height

def Chain.height : Chain → Nat
  | .nil => 0
  | .cons _ operand rest => max operand.height rest.height

def Stmt.height : Stmt → Nat
  | .defaults .. | .assign .. | .node .. => 0
  | .group group => group.height
  | .edge first _ second more _ => max first.height (max second.height more.height)
end

section
variable {directed : Bool} {depth : Nat}

mutual
theorem Group.height_le : ∀ {depth : Nat} (group : Group), depth ≤ maxNesting → group.Admissible directed depth →
    depth + group.height ≤ maxNesting
  | depth, .braced _ body, _, h => by
    have hbody := body.height_le (Nat.succ_le_of_lt h.1) h.2
    rw [Group.height]
    omega
  | _, .reference _, hd, _ => hd

theorem Body.height_le : ∀ {depth : Nat} (body : Body), depth ≤ maxNesting → body.Admissible directed depth →
    depth + body.height ≤ maxNesting
  | _, .nil, hd, _ => hd
  | depth, .cons stmt _ rest, hd, h => by
    have hstmt := stmt.height_le hd h.1
    have hrest := rest.height_le hd h.2
    rw [Body.height]
    omega

theorem Operand.height_le : ∀ {depth : Nat} (operand : Operand), depth ≤ maxNesting →
    operand.Admissible directed depth → depth + operand.height ≤ maxNesting
  | _, .node _, hd, _ => hd
  | _, .group group, hd, h => group.height_le hd h

theorem Chain.height_le : ∀ {depth : Nat} (chain : Chain), depth ≤ maxNesting → chain.Admissible directed depth →
    depth + chain.height ≤ maxNesting
  | _, .nil, hd, _ => hd
  | depth, .cons _ operand rest, hd, h => by
    have hoperand := operand.height_le hd h.2.1
    have hrest := rest.height_le hd h.2.2
    rw [Chain.height]
    omega

theorem Stmt.height_le : ∀ {depth : Nat} (stmt : Stmt), depth ≤ maxNesting → stmt.Admissible directed depth →
    depth + stmt.height ≤ maxNesting
  | _, .defaults _ _ _, hd, _ | _, .assign _ _, hd, _ | _, .node _ _, hd, _ => hd
  | _, .group group, hd, h => group.height_le hd h
  | depth, .edge first _ second more _, hd, h => by
    have hfirst := first.height_le hd h.1
    have hsecond := second.height_le hd h.2.2.1
    have hmore := more.height_le hd h.2.2.2.1
    rw [Stmt.height]
    omega
end

mutual
theorem Group.admissible_of_height : ∀ {depth other : Nat} (group : Group), group.Admissible directed depth →
    other + group.height ≤ maxNesting → group.Admissible directed other
  | _, other, .braced _ body, h, hd => by
    rw [Group.height] at hd
    exact ⟨by omega, body.admissible_of_height h.2 (by omega)⟩
  | _, _, .reference _, h, _ => h

theorem Body.admissible_of_height : ∀ {depth other : Nat} (body : Body), body.Admissible directed depth →
    other + body.height ≤ maxNesting → body.Admissible directed other
  | _, _, .nil, h, _ => h
  | _, other, .cons stmt _ rest, h, hd => by
    rw [Body.height] at hd
    exact ⟨stmt.admissible_of_height h.1 (by omega), rest.admissible_of_height h.2 (by omega)⟩

theorem Operand.admissible_of_height : ∀ {depth other : Nat} (operand : Operand),
    operand.Admissible directed depth → other + operand.height ≤ maxNesting → operand.Admissible directed other
  | _, _, .node _, h, _ => h
  | _, _, .group group, h, hd => group.admissible_of_height h hd

theorem Chain.admissible_of_height : ∀ {depth other : Nat} (chain : Chain), chain.Admissible directed depth →
    other + chain.height ≤ maxNesting → chain.Admissible directed other
  | _, _, .nil, h, _ => h
  | _, other, .cons _ operand rest, h, hd => by
    rw [Chain.height] at hd
    exact ⟨h.1, operand.admissible_of_height h.2.1 (by omega), rest.admissible_of_height h.2.2 (by omega)⟩

theorem Stmt.admissible_of_height : ∀ {depth other : Nat} (stmt : Stmt), stmt.Admissible directed depth →
    other + stmt.height ≤ maxNesting → stmt.Admissible directed other
  | _, _, .defaults _ _ _, h, _ | _, _, .assign _ _, h, _ | _, _, .node _ _, h, _ => h
  | _, _, .group group, h, hd => group.admissible_of_height h hd
  | _, other, .edge first _ second more _, h, hd => by
    rw [Stmt.height] at hd
    exact ⟨first.admissible_of_height h.1 (by omega), h.2.1, second.admissible_of_height h.2.2.1 (by omega),
      more.admissible_of_height h.2.2.2.1 (by omega), h.2.2.2.2⟩
end

/-- The bodies around leave so much less room, and make no other difference. -/
theorem Body.admissible_iff (body : Body) (hd : depth ≤ maxNesting) :
    body.Admissible directed depth ↔ body.Admissible directed 0 ∧ depth + body.height ≤ maxNesting := by
  constructor
  · intro h
    have hheight := body.height_le hd h
    exact ⟨body.admissible_of_height h (by omega), hheight⟩
  · rintro ⟨h, hheight⟩
    exact body.admissible_of_height h hheight

end

end Grammar

namespace Parser
open Grammar

/-- After any calls, the parser counts the bodies that were open where calls failed, of all of them together. Where a
run fails, it has passed tokens up to what is left of them. A run accepts a document if and only if the bodies of the
document are nested no deeper than the limit, the bodies that are counted among them. -/
theorem depth_exact (text : String) (calls : List Call) :
    let parser := (Parser.ofString text).after calls
    parser.depth = allLeftOpen calls (.ofString text) ∧ parser.depth ≤ maxNesting ∧
    (∀ error after, parser.process = (.error error, after) → parser.lexer.tokens = [.error error] ∨
      parser.lexer.tokens = (parser.passed error after).map .ok ++ after.unpassed error) ∧
    ((∃ graph after, parser.process = (.ok graph, after)) ↔
      ∃ doc : Document, doc.Admissible ∧ parser.depth + doc.body.height ≤ maxNesting ∧
        parser.lexer.tokens = (doc.tokens ++ [Token.eof]).map .ok) := by
  intro parser
  obtain ⟨hdepth, hbound⟩ := depth_after calls (.ofString text)
  have hle : parser.depth ≤ maxNesting := hbound (Nat.zero_le _)
  refine ⟨hdepth.trans (Nat.zero_add _), hle, ?_, ?_⟩
  · intro error after h
    obtain ⟨ts, hts, -⟩ := depth_of_rejected h
    rw [passed_eq hts]
    exact hts.imp_left And.left
  · rw [accepts_iff_derivable]
    refine exists_congr fun doc => ?_
    rw [doc.body.admissible_iff hle, and_assoc]
    rfl

/-- The first run fails with all bodies open that are allowed. -/
def crowdedText : String :=
  "graph \x7b" ++ String.ofList (List.replicate maxNesting '\x7b') ++ "] graph \x7b \x7b \x7d \x7d"

def oneGroup : Document := ⟨false, false, none, .cons (.group (.braced .absent .nil)) false .nil⟩

/-- The second run does not accept a document of one group, with no body inside. -/
theorem oneGroup_rejected : let parser := (ofString crowdedText).after [.process]
    (parser.depth = maxNesting ∧ parser.process.1.toOption.isNone = true ∧
      parser.lexer.tokens = (oneGroup.tokens ++ [Token.eof]).map .ok) ∧
      oneGroup.Admissible ∧ oneGroup.body.height = 1 := by
  have hstart : ofString crowdedText = { lexer := ⟨"graph \x7b".toList ++ List.replicate maxNesting '\x7b' ++
      "] graph \x7b \x7b \x7d \x7d".toList, {}⟩ } := by
    unfold ofString Lexer.ofString crowdedText
    rw [String.toList_append, String.toList_append, @String.toList_ofList (List.replicate maxNesting '\x7b')]
  rw [hstart]
  refine ⟨by decide +kernel, ?_, rfl⟩
  simp [oneGroup, Document.Admissible, Body.Admissible, Stmt.Admissible, Group.Admissible, maxNesting]

/-- The first run fails with one body open. -/
def strandedText : String := "graph \x7b a \x7b ] graph \x7b \x7b \x7d \x7d"

theorem depth_exact_strandedText :
    (∃ error after, (ofString strandedText).process = (.error error, after) ∧
      (ofString strandedText).lexer.tokens =
        [.keyword .graph, .openBrace, .identifier "a", .openBrace].map .ok ++ after.unpassed error) ∧
      ((ofString strandedText).after [.process]).depth = 1 ∧
      ∃ graph after, ((ofString strandedText).after [.process]).process = (.ok graph, after) := by
  refine ⟨?_, ?_, ?_⟩
  · have hpassed : (match (ofString strandedText).process with
        | (.ok _, _) => []
        | (.error error, after) => (ofString strandedText).passed error after) =
          [.keyword .graph, .openBrace, .identifier "a", .openBrace] := by
      decide +kernel
    match h : (ofString strandedText).process with
    | (.ok graph, after) =>
      rw [h] at hpassed
      cases hpassed
    | (.error error, after) =>
      rw [h] at hpassed
      refine ⟨error, after, rfl, ?_⟩
      rcases (depth_exact strandedText []).2.2.1 error after h with ht | ht
      · have hlength : (ofString strandedText).lexer.tokens.length ≠ 1 := by decide +kernel
        exact absurd (congrArg List.length ht) hlength
      · exact hpassed ▸ ht
  · exact (depth_exact strandedText [.process]).1.trans (by decide +kernel)
  · refine (depth_exact strandedText [.process]).2.2.2.2 ⟨oneGroup, ?_, ?_, by decide +kernel⟩
    · simp [oneGroup, Document.Admissible, Body.Admissible, Stmt.Admissible, Group.Admissible, maxNesting]
    · decide +kernel

end Parser

end DotLang
