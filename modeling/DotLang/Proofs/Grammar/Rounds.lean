import DotLang.Parser.Statement
import DotLang.Proofs.Grammar.Passing

/-!
# Loops, round by round

What the loops of a parser do in one round. A loop that is given a number of rounds goes round until one gives a
result or fails. If all rounds that lead to another pass a token, it never needs more rounds than there are tokens
ahead, and so comes to the end that the rounds alone determine.
-/

namespace DotLang.Parse

section
variable {σ α : Type}

/-- Going round from a state until a round gives a result or fails. -/
inductive Rounds (round : σ → Parse (σ ⊕ α)) : σ → Parser → EStateM.Result Error Parser α → Prop
  | done {s : σ} {p q : Parser} {a : α} (h : round s p = .ok (.inr a) q) : Rounds round s p (.ok a q)
  | failed {s : σ} {p q : Parser} {error : Error} (h : round s p = .error error q) : Rounds round s p (.error error q)
  | again {s next : σ} {p q : Parser} {result : EStateM.Result Error Parser α} (h : round s p = .ok (.inl next) q)
    (hr : Rounds round next q result) : Rounds round s p result

/-- Goes round at most so many times; `otherwise` is what to do when that was not enough. -/
def goRound (round : σ → Parse (σ ⊕ α)) (otherwise : σ → Parse α) : (fuel : Nat) → σ → Parse α
  | 0, s => otherwise s
  | fuel + 1, s => round s >>= Sum.elim (goRound round otherwise fuel) pure

/-- A round passes a token at least, none of them the end of the text. It does not where the loop does not go on for
the token in hand, and then it ends the loop. -/
def Progresses (goesOn : Token → Prop) (round : σ → Parse (σ ⊕ α)) : Prop :=
  ∀ {s : σ} {p q : Parser} {result : σ ⊕ α}, round s p = .ok result q →
    (∃ ts, ts ≠ [] ∧ (∀ t ∈ ts, t ≠ Token.eof) ∧ Passes p ts q) ∨
      (¬ goesOn p.token ∧ q = p ∧ ∃ a, result = .inr a)

/-- What goes on like the rounds ends like them, if it may go on as often as there are tokens ahead. -/
theorem rounds_of_progresses {goesOn : Token → Prop} {round : σ → Parse (σ ⊕ α)} (h : Progresses goesOn round)
    {f : Nat → σ → Parse α} (hf : ∀ fuel s, f (fuel + 1) s = round s >>= Sum.elim (f fuel) pure) :
    ∀ {fuel : Nat} (s : σ) {p : Parser}, p.ahead.length ≤ fuel → Rounds round s p (f fuel s p)
  | 0, _, p, hl => by simp [Parser.ahead] at hl
  | fuel + 1, s, p, hl => by
    rw [hf]
    show Rounds round s p (EStateM.bind (round s) (Sum.elim (f fuel) pure) p)
    unfold EStateM.bind
    cases hr : round s p with
    | error error q => exact .failed hr
    | ok result q =>
      cases result with
      | inr a => exact .done hr
      | inl next =>
        refine .again hr (rounds_of_progresses h hf next ?_)
        rcases h hr with ⟨ts, hne, -, hts⟩ | ⟨-, -, a, ha⟩
        · have := hts.length_ahead
          have := List.length_pos_iff.2 hne
          omega
        · cases ha

end

/-! ## The loops of the parser -/

def concatenationRound (text : String) : Parse (String ⊕ String) := do
  if (← token) = .plus then
    advance
    match ← token with
    | .quoted more =>
      advance
      return .inl (text ++ more)
    | _ => unexpected .quotedString
  else return .inr text

def attributeListRound (attrs : Attributes) : Parse (Attributes ⊕ Attributes) := do
  if (← token) = .closeBracket then
    advance
    if (← token) = .openBracket then
      advance
      return .inl attrs
    else return .inr attrs
  else if (← token).isId then return .inl (← assignment attrs)
  else unexpected .attributeName

section
variable (body : Builder → Parse Builder)

def chainRound (s : Builder × List Operand) : Parse ((Builder × List Operand) ⊕ (List Operand × Builder)) := do
  if (← token).isEdgeOp then
    let directed := s.1.kind.directed
    if (← token) ≠ .edgeOp directed then throw (.semantic (.wrongEdgeOp directed) (← get).loc)
    advance
    let (next, builder) ← operand body s.1
    return .inl (builder, s.2 ++ [next])
  else return .inr (s.2, s.1)

def bodyRound (builder : Builder) : Parse (Builder ⊕ Builder) := do
  match ← token with
  | .closeBrace =>
    advance
    return .inr builder
  | .eof => unexpected .closeBrace
  | _ =>
    let builder ← statement body builder
    if (← token) = .semicolon then advance
    return .inl builder

end

theorem unexpected_bind {α β : Type} (wanted : Expectation) (f : α → Parse β) :
    (unexpected wanted >>= f) = unexpected wanted := rfl

theorem concatenation_succ (fuel : Nat) (text : String) :
    concatenation (fuel + 1) text = concatenationRound text >>= Sum.elim (concatenation fuel) pure := by
  unfold concatenationRound
  rw [concatenation]
  simp only [bind_assoc]
  congr 1
  funext t
  split
  · simp only [bind_assoc]
    congr 1
    funext _
    congr 1
    funext t
    cases t with
    | quoted more => simp
    | _ => rfl
  · simp

theorem attributeList_succ (fuel : Nat) (attrs : Attributes) :
    attributeList (fuel + 1) attrs = attributeListRound attrs >>= Sum.elim (attributeList fuel) pure := by
  unfold attributeListRound
  rw [attributeList]
  simp only [bind_assoc]
  congr 1
  funext t
  split
  · simp only [bind_assoc]
    congr 1
    funext _
    congr 1
    funext t
    split <;> simp
  · simp only [bind_assoc]
    congr 1
    funext t
    split <;> simp [unexpected_bind]

theorem chainFrom_succ (body : Builder → Parse Builder) (fuel : Nat) (s : Builder × List Operand) :
    chainFrom body (fuel + 1) s.1 s.2 =
      chainRound body s >>= Sum.elim (fun s => chainFrom body fuel s.1 s.2) pure := by
  unfold chainRound
  rw [chainFrom]
  simp only [bind_assoc]
  congr 1
  funext t
  split
  · simp only [bind_assoc]
    congr 1
    funext t
    split
    · simp [bind_assoc]
    · simp [bind_assoc]
  · simp

theorem body_succ (fuel : Nat) (builder : Builder) :
    body (fuel + 1) builder = bodyRound (body fuel) builder >>= Sum.elim (body fuel) pure := by
  unfold bodyRound
  rw [body]
  simp only [bind_assoc]
  congr 1
  funext t
  split
  · simp
  · rfl
  · simp only [bind_assoc]
    congr 1
    funext builder
    congr 1
    funext t
    split <;> simp

end DotLang.Parse
