import DotLang.Proofs.Grammar.Completeness
import DotLang.Proofs.Grammar.Effects
import DotLang.Proofs.Grammar.Rounds
import DotLang.Proofs.Writing.Scanning

/-!
# What the parts of statements consume

All that reading a part of a statement does to a parser is to advance it, token by token and not beyond the end
of the text. So the tokens that a part has tell where the parser stands behind it.
-/

namespace DotLang
open Parse Grammar

/-! ## Advancing -/

/-- The parser passes tokens, the one in hand first, and then it is as the other. -/
inductive Parser.Advances : Parser → List Token → Parser → Prop
  | nil (p : Parser) : Advances p [] p
  | cons {p q r : Parser} {ts : List Token} (hne : p.token ≠ .eof) (h : advance p = .ok () q) (hr : Advances q ts r) :
    Advances p (p.token :: ts) r

namespace Parser.Advances

variable {p q r : Parser} {ts us : List Token}

theorem trans (h : p.Advances ts q) (h' : q.Advances us r) : p.Advances (ts ++ us) r := by
  induction h with
  | nil => exact h'
  | cons hne h _ ih => exact .cons hne h (ih h')

theorem append (h : p.Advances (ts ++ us) r) : ∃ q, p.Advances ts q ∧ q.Advances us r := by
  induction ts generalizing p with
  | nil => exact ⟨p, .nil p, h⟩
  | cons t ts ih =>
    cases h with
    | cons hne ha hr =>
      obtain ⟨q, hq, hu⟩ := ih hr
      exact ⟨q, .cons hne ha hq, hu⟩

/-- A token is in hand until the parser goes on behind it. -/
theorem first {t : Token} (h : p.Advances (t :: ts) r) :
    p.token = t ∧ ∃ q, advance p = .ok () q ∧ q.Advances ts r := by
  cases h with
  | cons hne ha hr => exact ⟨rfl, _, ha, hr⟩

theorem passes (h : p.Advances ts q) : Passes p ts q := by
  induction h with
  | nil => exact .refl _
  | cons hne ha _ ih => exact (passes_of_advance ha rfl hne).cons ih

theorem unique (h : p.Advances ts q) (h' : p.Advances us r) (hl : ts.length = us.length) : q = r := by
  induction h generalizing us with
  | nil =>
    obtain rfl := List.length_eq_zero_iff.1 hl.symm
    cases h'
    rfl
  | cons hne ha _ ih =>
    cases h' with
    | nil => cases hl
    | cons hne' ha' hr' =>
      obtain rfl : _ = _ := (EStateM.Result.ok.inj (ha.symm.trans ha')).2
      exact ih hr' (Nat.succ.inj hl)

end Parser.Advances

/-- A parser whose lexer reads tokens advances through them, to what comes next. -/
theorem advances_of_reads {p : Parser} {ts : List Token} {behind lexer : Lexer} {t : Token} {loc : Location}
    (h : p.lexer.Reads ts behind) (hn : behind.next = (.ok (t, loc), lexer)) :
    ∃ q, advance p = .ok () q ∧ q.Advances ts { p with lexer, token := t, loc } := by
  generalize hfront : p.lexer = front at h
  induction h generalizing p with
  | gap hgap =>
    refine ⟨_, ?_, .nil _⟩
    rw [advance, hfront, hgap, hn]
  | token hfirst hne _ ih =>
    obtain ⟨q, ha, hq⟩ := ih (p := { p with lexer := _, token := _, loc := _ }) hn rfl
    refine ⟨_, ?_, .cons hne ha hq⟩
    rw [advance, hfront, hfirst]

/-! ## Actions that only advance -/

/-- If the action succeeds, all it has done to the parser is to advance it. -/
structure Advancing {α : Type} (x : Parse α) (p : Parser) : Prop where
  advances : ∀ {a : α} {q : Parser}, x p = .ok a q → ∃ ts, p.Advances ts q

/-- What leaves the right tokens ahead has passed the right tokens. -/
theorem Advancing.exact {α : Type} {x : Parse α} {p q : Parser} {a : α} {ts : List Token} (hx : Advancing x p)
    (hy : Yields x p a q.ahead) (h : p.Advances ts q) : x p = .ok a q := by
  obtain ⟨r, hr, hahead, -⟩ := hy
  obtain ⟨us, hus⟩ := hx.advances hr
  have hts := h.passes.length_ahead
  have hlen := hus.passes.length_ahead
  rw [hahead] at hlen
  rwa [h.unique hus (by omega)]

/-- An action that opens no body and comes behind none can only advance. -/
theorem Parser.Leads.advances {p q : Parser} (h : p.Leads 0 false q) : ∃ ts, p.Advances ts q := by
  generalize hc : false = closed at h
  induction h with
  | refl p => exact ⟨[], .nil p⟩
  | pass ht ha _ ih =>
    obtain ⟨ts, hts⟩ := ih hc
    refine ⟨_ :: ts, .cons ?_ ha hts⟩
    rintro he
    rw [he] at ht
    cases ht
  | group _ hd => exact absurd hd (Nat.not_lt_zero _)
  | close => cases hc

namespace Advancing

variable {α β : Type} {p : Parser}

theorem of_goes {x : Parse α} (h : Goes 0 false p x p) : Advancing x p where
  advances hx := by
    unfold Goes at h
    rw [hx] at h
    exact h.advances

theorem bind {x : Parse α} {f : α → Parse β} (hx : Advancing x p) (hf : ∀ a q, Advancing (f a) q) :
    Advancing (x >>= f) p where
  advances h := by
    obtain ⟨a, r, hxr, hfr⟩ := bind_ok.1 h
    obtain ⟨ts, hts⟩ := hx.advances hxr
    obtain ⟨us, hus⟩ := (hf a r).advances hfr
    exact ⟨ts ++ us, hts.trans hus⟩

theorem ident (p : Parser) : Advancing ident p := of_goes (goes_ident (.refl p))

theorem value (p : Parser) : Advancing value p := of_goes (goes_value (.refl p))

theorem endpoint (node : String) (p : Parser) : Advancing (endpoint node) p := of_goes (goes_endpoint (.refl p) node)

theorem attributes (p : Parser) : Advancing attributes p := of_goes (goes_attributes (.refl p))

end Advancing

/-! ## Assignments -/

theorem follows_ahead {C : Token → Bool} {q : Parser} (h : C q.token = true) : Follows C q.ahead := follows_cons h _

section
variable (builder : Builder) {name value : Id} {p q : Parser}

theorem statement_of_isId_eq (body : Builder → Parse Builder) (h : p.token.isId = true) :
    statement body builder p = idStatement body builder p := by
  unfold statement
  rw [bind_token]
  cases ht : p.token <;> rw [ht] at h <;> first | (cases h; done) | rfl

theorem idStatement_assign (body : Builder → Parse Builder) (hn : name.CanName)
    (hw : value.ident.value.isWritable = true) (h : p.Advances (name.tokens ++ .equal :: value.tokens) q)
    (hq : q.token.endsId = true) :
    idStatement body builder p = .ok (builder.assign ⟨name.text, value.ident.value⟩) q := by
  obtain ⟨q₁, hname, hrest⟩ := h.append
  obtain ⟨hequal, q₂, hadvance, hvalue⟩ := hrest.first
  have hends : q₁.token.endsId = true := by rw [hequal]; rfl
  have hident : ident p = .ok name.ident q₁ :=
    (Advancing.ident p).exact (ident_complete name hname.passes.ahead (follows_ahead hends)) hname
  have hread : Parse.value q₂ = .ok value.ident.value q :=
    (Advancing.value q₂).exact (value_complete value hvalue.passes.ahead (follows_ahead hq)) hvalue
  unfold idStatement
  rw [bind_get, bind_of_ok hident, bind_token, if_pos hequal, bind_of_ok hadvance, bind_of_ok hread]
  exact ofEdit_ok.2 ⟨Builder.setAttribute_eq_ok.2 ⟨hn.1, ⟨hn.2, hw⟩, rfl⟩, rfl⟩

theorem bodyRound_assign (body : Builder → Parse Builder) (hn : name.CanName)
    (hw : value.ident.value.isWritable = true)
    (h : p.Advances (Assignment.tokens ⟨name, value, .semicolon⟩) q) :
    bodyRound body builder p = .ok (.inl (builder.assign ⟨name.text, value.ident.value⟩)) q := by
  have hid : p.token.isId = true := by
    have hahead := h.passes.ahead
    rw [Assignment.tokens, List.map_append, List.append_assoc] at hahead
    exact isId_token hahead
  have h' : p.Advances ((name.tokens ++ .equal :: value.tokens) ++ [.semicolon]) q := by
    simpa [Assignment.tokens, Separator.tokens] using h
  obtain ⟨r, hassign, hsemicolon⟩ := h'.append
  obtain ⟨ht, q', hadvance, hend⟩ := hsemicolon.first
  cases hend
  have hstatement : statement body builder p = .ok (builder.assign ⟨name.text, value.ident.value⟩) r := by
    rw [statement_of_isId_eq builder body hid]
    exact idStatement_assign builder body hn hw hassign (by rw [ht]; rfl)
  have hround : bodyRound body builder p = (statement body builder >>= fun builder => token >>= fun t =>
      if t = .semicolon then (advance >>= fun _ => pure (.inl builder)) else pure (.inl builder)) p := by
    unfold bodyRound
    rw [bind_token]
    cases hp : p.token <;> rw [hp] at hid <;> cases hid
  rw [hround, bind_of_ok hstatement, bind_token, if_pos ht, bind_of_ok hadvance]
  rfl

end

/-- A body goes through assignments that end in semicolons, one in each round. -/
theorem body_assignments (fuel : Nat) {assignments : List (Id × Id)} (h : ∀ a ∈ assignments, a.1.CanName ∧
    a.2.ident.value.isWritable = true) (builder : Builder) {p q : Parser}
    (hp : p.Advances (assignments.flatMap fun a => Assignment.tokens ⟨a.1, a.2, .semicolon⟩) q) :
    body (fuel + assignments.length) builder p =
      body fuel (assignments.foldl (fun builder a => builder.assign ⟨a.1.text, a.2.ident.value⟩) builder) q := by
  induction assignments generalizing builder p with
  | nil =>
    cases hp
    rfl
  | cons a rest ih =>
    rw [List.forall_mem_cons] at h
    obtain ⟨r, hfirst, hrest⟩ := hp.append
    have hround := bodyRound_assign builder (body (fuel + rest.length)) h.1.1 h.1.2 hfirst
    rw [List.length_cons, ← Nat.add_assoc, body_succ, bind_of_ok hround]
    exact ih h.2 _ hrest

end DotLang
