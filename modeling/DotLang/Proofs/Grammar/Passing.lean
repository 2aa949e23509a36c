import DotLang.Parser.Document
import DotLang.Proofs.Tokens

/-!
# Passing tokens

What a parser has ahead: the token in hand and all behind it. An action that succeeds takes some of them
away from the front, and so the tokens that two actions pass one after the other are put together.
-/

namespace DotLang

/-- The token in hand, and all that come behind it. -/
def Parser.ahead (parser : Parser) : List (Except Error Token) :=
  .ok parser.token :: if parser.token = .eof then [] else parser.lexer.tokens

/-- Tokens lead from one parser to another, in which as many bodies are open. -/
structure Passes (p : Parser) (ts : List Token) (q : Parser) : Prop where
  ahead : p.ahead = ts.map .ok ++ q.ahead
  depth : q.depth = p.depth

namespace Passes

variable {p q r : Parser} {ts us : List Token}

theorem refl (p : Parser) : Passes p [] p := ⟨rfl, rfl⟩

theorem trans (h : Passes p ts q) (h' : Passes q us r) : Passes p (ts ++ us) r where
  ahead := by rw [h.ahead, h'.ahead, List.map_append, List.append_assoc]
  depth := h'.depth.trans h.depth

theorem cons {t : Token} (h : Passes p [t] q) (h' : Passes q us r) : Passes p (t :: us) r := h.trans h'

theorem length_ahead (h : Passes p ts q) : p.ahead.length = ts.length + q.ahead.length := by
  rw [h.ahead, List.length_append, List.length_map]

/-- There is always a token in hand. -/
theorem length_le (h : Passes p ts q) : ts.length + 1 ≤ p.ahead.length := by
  rw [h.length_ahead]
  exact Nat.add_le_add_left (by simp [Parser.ahead]) _

end Passes

namespace Parser

variable {p : Parser}

theorem token_of_ahead {t : Token} {rest : List (Except Error Token)} (h : p.ahead = .ok t :: rest) :
    p.token = t := by
  have h := List.head_eq_of_cons_eq h
  simpa using h

/-- What stands behind the token in hand comes from the lexer. -/
theorem clean_of_ahead {t : Token} {rest : List (Except Error Token)} (h : p.ahead = .ok t :: rest)
    {t' : Token} (ht : .ok t' ∈ rest) : t'.Clean := by
  obtain ⟨-, rfl⟩ := List.cons.inj h
  split at ht
  · cases ht
  · exact Lexer.clean_of_mem_tokens ht

theorem ahead_length_le (p : Parser) : p.ahead.length ≤ p.lexer.rest.length + 2 := by
  unfold ahead
  split
  · simp
  · have := p.lexer.length_tokens_le
    rw [List.length_cons]
    omega

end Parser

theorem Token.edgeOp_ne_eof (directed : Bool) : Token.edgeOp directed ≠ .eof := by
  cases directed <;> simp [Token.edgeOp]

namespace Parse

section
variable {α β : Type} {p q : Parser}

/-! ## Actions one after the other -/

theorem bind_ok {x : Parse α} {f : α → Parse β} {b : β} :
    (x >>= f) p = .ok b q ↔ ∃ a r, x p = .ok a r ∧ f a r = .ok b q := by
  show EStateM.bind x f p = _ ↔ _
  unfold EStateM.bind
  cases h : x p <;> simp [and_assoc]

theorem bind_of_ok {x : Parse α} {f : α → Parse β} {a : α} (h : x p = .ok a q) : (x >>= f) p = f a q := by
  show EStateM.bind x f p = _
  unfold EStateM.bind
  rw [h]

theorem bind_of_error {x : Parse α} {f : α → Parse β} {error : Error} (h : x p = .error error q) :
    (x >>= f) p = .error error q := by
  show EStateM.bind x f p = _
  unfold EStateM.bind
  rw [h]

theorem run_ok {x : Parse α} {a : α} : p.run x = (.ok a, q) ↔ x p = .ok a q := by
  unfold Parser.run EStateM.run
  cases x p <;> simp

theorem run_error {x : Parse α} {error : Error} : p.run x = (.error error, q) ↔ x p = .error error q := by
  unfold Parser.run EStateM.run
  cases x p <;> simp

theorem pure_ok {a b : α} : (pure a : Parse α) p = .ok b q ↔ a = b ∧ p = q := by
  show EStateM.Result.ok a p = _ ↔ _
  simp

theorem bind_token (f : Token → Parse β) : (token >>= f) p = f p.token p := rfl

theorem bind_get (f : Parser → Parse β) : ((get : Parse Parser) >>= f) p = f p p := rfl

theorem bind_fuel (f : Nat → Parse β) : (fuel >>= f) p = f (p.lexer.rest.length + 2) p := rfl

theorem bind_modify (g : Parser → Parser) (f : PUnit → Parse β) : (modify g >>= f) p = f ⟨⟩ (g p) := rfl

theorem bind_note (notes : List Note) (f : Unit → Parse β) :
    (note notes >>= f) p = f () { p with notes := p.notes ++ notes } := rfl

theorem unexpected_ne_ok {wanted : Expectation} {a : α} : (unexpected wanted : Parse α) p ≠ .ok a q := nofun

theorem throw_ne_ok {error : Error} {a : α} : (throw error : Parse α) p ≠ .ok a q := nofun

theorem ofEdit_ok {loc : Location} {result : Except Error α} {a : α} :
    ofEdit loc result p = .ok a q ↔ result = .ok a ∧ p = q := by
  cases result with
  | ok result =>
    show (pure result : Parse α) p = _ ↔ _
    rw [pure_ok]
    simp
  | error error => exact ⟨nofun, nofun⟩

/-! ## Passing one token -/

theorem ahead_of_advance {u : Unit} (h : advance p = .ok u q) : q.ahead = p.lexer.tokens := by
  unfold advance at h
  split at h
  · rename_i token loc lexer hn
    cases h
    exact (Lexer.tokens_of_ok hn).symm
  · cases h

theorem depth_of_advance {u : Unit} (h : advance p = .ok u q) : q.depth = p.depth := by
  unfold advance at h
  split at h <;> cases h
  rfl

theorem passes_of_advance {t : Token} {u : Unit} (h : advance p = .ok u q) (ht : p.token = t) (hne : t ≠ .eof) :
    Passes p [t] q := by
  subst ht
  refine ⟨?_, depth_of_advance h⟩
  rw [ahead_of_advance h]
  unfold Parser.ahead
  rw [if_neg hne]
  rfl

theorem passes_of_expect {t : Token} {wanted : Expectation} {u : Unit} (h : expect t wanted p = .ok u q)
    (hne : t ≠ .eof) : Passes p [t] q := by
  unfold expect at h
  rw [bind_token] at h
  split at h
  · rename_i ht
    exact passes_of_advance h ht hne
  · exact absurd h unexpected_ne_ok

end

end Parse

/-! ## Actions that succeed -/

/-- The action succeeds with a result and leaves the given tokens ahead. -/
def Yields {α : Type} (x : Parse α) (p : Parser) (a : α) (rest : List (Except Error Token)) : Prop :=
  ∃ q, x p = .ok a q ∧ q.ahead = rest ∧ q.depth = p.depth

/-- The next token is there, and is as `C` says. -/
def Follows (C : Token → Bool) (rest : List (Except Error Token)) : Prop :=
  ∃ t rest', rest = .ok t :: rest' ∧ C t = true

theorem Follows.mono {C D : Token → Bool} (hCD : ∀ t, C t = true → D t = true) {rest : List (Except Error Token)}
    (h : Follows C rest) : Follows D rest := by
  obtain ⟨t, rest', hr, ht⟩ := h
  exact ⟨t, rest', hr, hCD t ht⟩

theorem follows_cons {C : Token → Bool} {t : Token} (h : C t = true) (rest : List (Except Error Token)) :
    Follows C (.ok t :: rest) := ⟨t, rest, rfl, h⟩

theorem follows_append {C : Token → Bool} {ts : List Token} {rest : List (Except Error Token)}
    (ht : ∀ t ∈ ts.head?, C t = true) (hr : ts = [] → Follows C rest) : Follows C (ts.map .ok ++ rest) := by
  cases ts with
  | nil => exact hr rfl
  | cons t ts => exact follows_cons (ht t rfl) _

theorem Follows.token {C : Token → Bool} {p : Parser} (h : Follows C p.ahead) : C p.token = true := by
  obtain ⟨t, rest', hr, ht⟩ := h
  rwa [Parser.token_of_ahead hr]

namespace Yields
open Parse

variable {α β : Type} {p : Parser} {a : α} {b : β} {rest rest' : List (Except Error Token)}

theorem bind {x : Parse α} {f : α → Parse β} (h : Yields x p a rest)
    (hf : ∀ q, q.ahead = rest → q.depth = p.depth → Yields (f a) q b rest') : Yields (x >>= f) p b rest' := by
  obtain ⟨q, hx, hr, hd⟩ := h
  obtain ⟨q', hy, hr', hd'⟩ := hf q hr hd
  exact ⟨q', (bind_of_ok hx).trans hy, hr', hd'.trans hd⟩

theorem pure (h : p.ahead = rest) : Yields (pure a) p a rest := ⟨p, rfl, h, rfl⟩

theorem token {f : Token → Parse β} {t : Token} (ht : p.token = t) (h : Yields (f t) p b rest) :
    Yields (Parse.token >>= f) p b rest := by
  subst ht
  exact h

theorem get {f : Parser → Parse β} (h : Yields (f p) p b rest) : Yields (get >>= f) p b rest := h

theorem fuel {f : Nat → Parse β} (h : Yields (f (p.lexer.rest.length + 2)) p b rest) :
    Yields (Parse.fuel >>= f) p b rest := h

theorem ofEdit {loc : Location} {result : Except Error α} (hr : result = .ok a) (h : p.ahead = rest) :
    Yields (Parse.ofEdit loc result) p a rest :=
  ⟨p, ofEdit_ok.2 ⟨hr, rfl⟩, h, rfl⟩

/-- A token that is followed by another can be passed. -/
theorem advance {t : Token} {C : Token → Bool} (h : p.ahead = .ok t :: rest) (hne : t ≠ .eof)
    (hf : Follows C rest) : Yields advance p () rest := by
  obtain ⟨next, rest, rfl, -⟩ := hf
  have ht := Parser.token_of_ahead h
  unfold Parser.ahead at h
  rw [ht, if_neg hne, List.cons.injEq] at h
  match hn : p.lexer.next with
  | (.error error, lexer) =>
    rw [Lexer.tokens_of_error hn] at h
    simp at h
  | (.ok (token, loc), lexer) =>
    rw [Lexer.tokens_of_ok hn] at h
    refine ⟨{ p with lexer, token, loc }, ?_, h.2, rfl⟩
    unfold Parse.advance
    rw [hn]

theorem expect {t : Token} {C : Token → Bool} {wanted : Expectation} (h : p.ahead = .ok t :: rest) (hne : t ≠ .eof)
    (hf : Follows C rest) : Yields (expect t wanted) p () rest := by
  refine token (Parser.token_of_ahead h) ?_
  rw [if_pos rfl]
  exact advance h hne hf

end Yields

end DotLang
