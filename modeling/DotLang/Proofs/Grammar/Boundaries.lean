import DotLang.Proofs.Grammar.Agreement
import DotLang.Proofs.Grammar.Surroundings

/-!
# What holds between statements

A group leaves the defaults as they were, and a statement changes none but those of the innermost scope. The
parser counts the bodies that are open. That is shown by a parser that runs a check at both ends of each
statement: where the check passes as long as the count is right, that parser is the one without it.
-/

namespace DotLang

/-! ## Scopes -/

namespace ScopedMap

theorem depth_insert {κ ν : Type} [DecidableEq κ] (map : ScopedMap κ ν) (key : κ) (value : ν) :
    (map.insert key value).depth = map.depth := by
  unfold insert
  split
  · rfl
  · rename_i scope outer h
    unfold depth
    rw [h]
    rfl

end ScopedMap

namespace Scopes

/-- No scope but the innermost is changed, none has come in and none has ended. -/
def SameOutside (a b : Scopes) : Prop :=
  ∀ category, (b.of category).depth = (a.of category).depth ∧ (b.of category).pop = (a.of category).pop

theorem of_pop (scopes : Scopes) (category : Category) : scopes.pop.of category = (scopes.of category).pop := by
  cases category <;> rfl

theorem depth_of_merge (scopes : Scopes) (changed category : Category) (attrs : Attributes) :
    ((scopes.merge changed attrs).of category).depth = (scopes.of category).depth := by
  have hfold (entries : List Attribute) (map : ScopedMap String AttrValue) :
      (entries.foldl (fun map attr => map.insert attr.name attr.value) map).depth = map.depth := by
    induction entries generalizing map with
    | nil => rfl
    | cons attr entries ih => rw [List.foldl_cons, ih, ScopedMap.depth_insert]
  cases changed <;> cases category <;> simp [merge, of, hfold]

theorem sameOutside_merge (scopes : Scopes) (changed : Category) (attrs : Attributes) :
    scopes.SameOutside (scopes.merge changed attrs) := by
  intro category
  refine ⟨scopes.depth_of_merge changed category attrs, ?_⟩
  rw [← of_pop, pop_merge, of_pop]

end Scopes

namespace Grammar

theorem Stmt.sameOutside_scopes (scopes : Scopes) (stmt : Stmt) : scopes.SameOutside (stmt.scopes scopes) := by
  cases stmt with
  | defaults category first more => exact scopes.sameOutside_merge category _
  | _ => exact fun _ => ⟨rfl, rfl⟩

end Grammar

namespace Parse
open Grammar

/-! ## A check between statements -/

/-- The parser counts the open bodies, and there are no more than allowed. -/
def Counted (builder : Builder) (p : Parser) : Prop := p.depth = builder.bodies.length ∧ p.depth ≤ maxNesting

theorem carries_counted : Carries Counted Counted where
  pass h hp hl := by
    unfold Counted
    rw [hp.depth, hl]
    exact h
  enter {builder} {p} {q} _ h hlt hp := by
    -- One more body is open and one more is counted.
    constructor
    · show q.depth + 1 = builder.bodies.length + 1
      rw [hp.depth, h.1]
    · show q.depth + 1 ≤ maxNesting
      rw [hp.depth]
      exact hlt

/-- Reads a body like `body`, and runs a check in front of each statement and behind it. -/
def watchedBody (check : Builder → Parse Unit) : (fuel : Nat) → Builder → Parse Builder
  | 0, _ => unexpected .closeBrace
  | fuel + 1, builder => do
    check builder
    match ← token with
    | .closeBrace =>
      advance
      return builder
    | .eof => unexpected .closeBrace
    | _ =>
      let builder ← statement (watchedBody check fuel) builder
      check builder
      if (← token) = .semicolon then advance
      watchedBody check fuel builder

theorem watchedBody_pure (fuel : Nat) : watchedBody (fun _ => pure ()) fuel = body fuel := by
  induction fuel with
  | zero => rfl
  | succ fuel ih =>
    funext builder
    unfold watchedBody body
    rw [ih]
    rfl

/-- Fails with the given error unless the parser counts the open bodies, and no more than allowed. -/
def checkCount (alarm : Error) (builder : Builder) : Parse Unit := do
  let depth := (← get).depth
  if depth ≠ builder.bodies.length ∨ maxNesting < depth then throw alarm

/-- A parser that takes a body to be open from the start does not pass. -/
example :
    let parser := { Parser.ofString "graph \x7b a \x7d" with depth := 1 }
    (parser.run (documentWith (watchedBody (checkCount (.attribute .emptyName none))))).1.toOption.isSome = false ∧
      parser.process.1.toOption.isSome = true := by
  decide +kernel

theorem checkCount_of_counted {alarm : Error} {builder : Builder} {p : Parser} (h : Counted builder p) :
    checkCount alarm builder p = .ok () p := by
  unfold checkCount
  rw [bind_get]
  show (if p.depth ≠ builder.bodies.length ∨ maxNesting < p.depth then throw alarm else pure () : Parse Unit) p = _
  rw [if_neg]
  · rfl
  · rintro (hd | hd)
    · exact hd h.1
    · exact absurd h.2 (Nat.not_le_of_lt hd)

section
variable {check : Builder → Parse Unit}
  (hc : ∀ {builder : Builder} {p : Parser}, Counted builder p → check builder p = .ok () p)
include hc

/-- A check that passes wherever the count is right always passes. -/
theorem watchedBody_agrees : ∀ fuel : Nat, Agrees Counted (watchedBody check fuel) (body fuel)
  | 0 => fun _ _ _ => rfl
  | fuel + 1 => by
    intro builder p h
    unfold watchedBody body
    rw [bind_of_ok (hc h), bind_token, bind_token]
    generalize p.token = t
    cases t with
    | closeBrace => rfl
    | eof => rfl
    | _ =>
      apply bind_congr (statement_congr carries_counted (watchedBody_agrees fuel) (body_sound fuel) h)
      intro builder' p₁ h₁
      obtain ⟨stmt, hs, rfl, -⟩ := statement_sound (body_sound fuel) h₁
      have hcounted : Counted (stmt.run builder) p₁ := carries_counted.pass h hs (stmt.length_run builder)
      rw [bind_of_ok (hc hcounted), bind_token, bind_token]
      split
      · rename_i hsemi
        apply bind_congr rfl
        intro _ p₂ h₂
        have hpassed := passes_of_advance h₂ hsemi (by simp)
        exact watchedBody_agrees fuel (carries_counted.pass hcounted hpassed rfl)
      · exact watchedBody_agrees fuel hcounted

theorem documentWith_watchedBody {p : Parser} (hp : p.depth = 0) :
    documentWith (watchedBody check) p = document p := by
  apply documentWith_congr
  intro builder q hb hd
  rw [hp] at hd
  apply watchedBody_agrees hc
  exact ⟨by rw [hd, hb, List.length_nil], by rw [hd]; exact Nat.zero_le _⟩

end

end Parse

/-- The parser after some calls that read a token each, or fail to. -/
def Parser.lexed : (calls : Nat) → Parser → Parser
  | 0, parser => parser
  | calls + 1, parser => (parser.run Parse.advance).2.lexed calls

theorem Parser.depth_lexed : ∀ (calls : Nat) (parser : Parser), (parser.lexed calls).depth = parser.depth
  | 0, _ => rfl
  | calls + 1, parser => by
    rw [lexed, depth_lexed calls]
    unfold run EStateM.run Parse.advance
    split <;> rename_i h <;> split at h <;> cases h <;> rfl

namespace Parse
open Grammar

/-- A group leaves all defaults as they were, a statement those outside of its own body and the names of the open
bodies. In the first run of a parser, however many tokens were read before, a check of the count between statements
never fails. -/
theorem outside_unchanged :
    (∀ {fuel : Nat} {builder result : Builder} {names : List String} {p q : Parser},
      subgraph (body fuel) builder p = .ok (names, result) q → result.scopes = builder.scopes) ∧
    (∀ {fuel : Nat} {builder result : Builder} {p q : Parser}, statement (body fuel) builder p = .ok result q →
      builder.scopes.SameOutside result.scopes ∧
        result.bodies.map Subgraph.name = builder.bodies.map Subgraph.name) ∧
    ∀ (text : String) (calls : Nat) (alarm : Error),
      ((Parser.ofString text).lexed calls).run (documentWith (watchedBody (checkCount alarm))) =
        ((Parser.ofString text).lexed calls).process := by
  refine ⟨?_, ?_, ?_⟩
  · intro fuel builder result names p q h
    obtain ⟨group, -, hr, -⟩ := subgraph_sound (body_sound fuel) h
    rw [← group.scopes_run builder, hr]
  · intro fuel builder result p q h
    obtain ⟨stmt, -, rfl, -⟩ := statement_sound (body_sound fuel) h
    rw [stmt.scopes_run]
    exact ⟨stmt.sameOutside_scopes builder.scopes, stmt.names_run builder⟩
  · intro text calls alarm
    have hdepth : ((Parser.ofString text).lexed calls).depth = 0 := Parser.depth_lexed ..
    unfold Parser.process Parser.run EStateM.run
    rw [documentWith_watchedBody checkCount_of_counted hdepth]

theorem exists_ok_of_run {α : Type} {x : Parse α} {p : Parser} (h : (p.run x).1.toOption.isSome = true) :
    ∃ a q, x p = .ok a q := by
  unfold Parser.run EStateM.run at h
  cases hx : x p with
  | ok a q => exact ⟨a, q, rfl⟩
  | error error q =>
    rw [hx] at h
    cases h

/-- A body as the operand of an edge, with defaults of its own, read in the body of `s`. -/
theorem outside_unchanged_operandText :
    let parser := (Parser.ofString "\x7b node [x=1]; a \x7d -- subgraph t [y=2]").lexed 1
    let builder := (Builder.new "" ⟨false, false⟩).enterScope.openSubgraph "s"
    (∃ names result q, subgraph (body 9) builder parser = .ok (names, result) q ∧ result.scopes = builder.scopes) ∧
      ∃ result q, statement (body 9) builder parser = .ok result q ∧ builder.scopes.SameOutside result.scopes ∧
        result.bodies.map Subgraph.name = ["s"] := by
  intro parser builder
  constructor
  · obtain ⟨⟨names, result⟩, q, h⟩ : ∃ found q, subgraph (body 9) builder parser = .ok found q :=
      exists_ok_of_run (by decide +kernel)
    exact ⟨names, result, q, h, outside_unchanged.1 h⟩
  · obtain ⟨result, q, h⟩ : ∃ result q, statement (body 9) builder parser = .ok result q :=
      exists_ok_of_run (by decide +kernel)
    exact ⟨result, q, h, outside_unchanged.2.1 h⟩

end Parse

end DotLang
