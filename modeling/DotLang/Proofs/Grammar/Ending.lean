import DotLang.Proofs.Grammar.Agreement
import DotLang.Proofs.Grammar.Completeness
import DotLang.Proofs.Positions

/-!
# Reading ends

A token takes up bytes, so a lexer has no more items than the text has bytes, and one. A round of a loop takes up
tokens, so each loop comes to the end that its rounds lead to, and the number of rounds it is allowed does not matter.
Nor does the number of bodies that may be nested, since the parser counts them: it is the same as one that fails
where a loop is not done in time, or where more bodies are open than are allowed.
-/

namespace DotLang

theorem length_le_byteLength (text : List Char) : text.length ≤ byteLength text := by
  induction text with
  | nil => simp
  | cons c text ih =>
    have hc := c.utf8Size_pos
    rw [List.length_cons, byteLength_cons]
    omega

/-! ## Tokens and items -/

namespace Lexer

/-- A token but the last takes up bytes. -/
theorem offset_lt_next {lexer : Lexer} {token : Token} {loc : Location} (h : lexer.next.1 = .ok (token, loc))
    (hne : token ≠ .eof) : loc.offset < lexer.next.2.loc.offset := by
  unfold next at h ⊢
  split at h
  · cases h
  · rename_i n hn
    dsimp only at h ⊢
    split at h
    · rename_i ht
      cases h
      generalize lexer.skip n = here at ht ⊢
      obtain ⟨hrest, hlength⟩ := Lexeme.length_pos ht hne
      obtain ⟨c, rest, hr⟩ := List.exists_cons_of_ne_nil hrest
      obtain ⟨k, hk⟩ := Nat.exists_eq_succ_of_ne_zero (Nat.ne_of_gt hlength)
      have hc := c.utf8Size_pos
      rw [hk, offset_skip, hr, List.take_succ_cons, byteLength_cons]
      omega
    · cases h

theorem moved_next (lexer : Lexer) : ∀ calls, lexer.next.2.moved calls = lexer.moved (calls + 1)
  | 0 => rfl
  | calls + 1 => by
    rw [moved, moved_next lexer calls]
    rfl

/-- An item behind which no other is read: the end of the text, or a failure. -/
def IsLast (item : Except Error (Token × Location)) : Prop :=
  ∀ token loc, item = .ok (token, loc) → token = .eof

/-- The items are what the calls give, up to the first one that is last. -/
theorem readAll_eq (lexer : Lexer) : ∃ n ≤ lexer.rest.length,
    lexer.readAll = (List.range (n + 1)).map (fun i => (lexer.moved i).next.1) ∧
      (∀ i < n, ¬ IsLast (lexer.moved i).next.1) ∧ IsLast (lexer.moved n).next.1 := by
  rw [readAll]
  split
  · rename_i error he
    exact ⟨0, Nat.zero_le _, by simp [moved, he], nofun, by rw [moved, he]; nofun⟩
  · rename_i token loc hl
    split
    · rename_i hne
      subst hne
      refine ⟨0, Nat.zero_le _, by simp [moved, hl], nofun, ?_⟩
      rw [moved, hl]
      rintro token loc h
      cases h
      rfl
    · rename_i hne
      have hlt := length_rest_next hl hne
      obtain ⟨n, hn, hread, hmore, hlast⟩ := readAll_eq lexer.next.2
      simp only [moved_next] at hread hmore hlast
      refine ⟨n + 1, by omega, ?_, ?_, hlast⟩
      · rw [List.range_succ_eq_map, List.map_cons, List.map_map, hread, ← hl]
        rfl
      · intro i hi
        cases i with
        | zero => exact fun h => hne (h token loc hl)
        | succ i => exact hmore i (by omega)
termination_by lexer.rest.length
decreasing_by exact hlt

/-- The end of the text is the last of the tokens. -/
theorem ne_eof_of_tokens {lexer : Lexer} {front : List Token} {rest : List (Except Error Token)} (hne : rest ≠ [])
    (h : lexer.tokens = front.map .ok ++ rest) : ∀ t ∈ front, t ≠ .eof := by
  cases front with
  | nil => simp
  | cons first front =>
    match hn : lexer.next with
    | (.error error, _) =>
      rw [tokens_of_error hn] at h
      simp at h
    | (.ok (token, loc), next) =>
      rw [tokens_of_ok hn, List.map_cons, List.cons_append, List.cons.injEq, Except.ok.injEq] at h
      obtain ⟨rfl, h⟩ := h
      split at h
      · exact absurd (List.append_eq_nil_iff.1 h.symm).2 hne
      · rename_i ht
        exact List.forall_mem_cons.2 ⟨ht, ne_eof_of_tokens hne h⟩

end Lexer

theorem Parser.ahead_ne_nil (p : Parser) : p.ahead ≠ [] := nofun

theorem Passes.ne_eof {p q : Parser} {ts : List Token} (h : Passes p ts q) : ∀ t ∈ ts, t ≠ .eof := by
  have ha := h.ahead
  cases ts with
  | nil => simp
  | cons first ts =>
    unfold Parser.ahead at ha
    rw [List.map_cons, List.cons_append, List.cons.injEq, Except.ok.injEq] at ha
    obtain ⟨rfl, ha⟩ := ha
    split at ha
    · exact absurd (List.append_eq_nil_iff.1 ha.symm).2 nofun
    · rename_i ht
      exact List.forall_mem_cons.2 ⟨ht, Lexer.ne_eof_of_tokens q.ahead_ne_nil ha⟩

namespace Parse
open Grammar

/-! ## Loops -/

section
variable {σ α : Type} {goesOn : Token → Prop} {round : σ → Parse (σ ⊕ α)}

/-- Each round that a loop goes on for passes tokens, and the loop comes to the end that the rounds lead to. -/
structure Ends (goesOn : Token → Prop) (round : σ → Parse (σ ⊕ α)) (loop : σ → Parse α) : Prop where
  progresses : Progresses goesOn round
  rounds : ∀ s p, Rounds round s p (loop s p)

theorem Ends.intro (h : Progresses goesOn round) {f : Nat → σ → Parse α}
    (hf : ∀ fuel s, f (fuel + 1) s = round s >>= Sum.elim (f fuel) pure) :
    Ends goesOn round (fun s => do f (← fuel) s) where
  progresses := h
  rounds s p := rounds_of_progresses h hf s p.ahead_length_le

theorem ends_concatenation :
    Ends (· = .plus) concatenationRound (fun text => do concatenation (← fuel) text) := by
  refine .intro ?_ concatenation_succ
  intro text p q result h
  rcases concatenationRound_sound h with ⟨more, hp, -⟩ | ⟨rfl, rfl, ht⟩
  · exact Or.inl ⟨_, by simp, hp.ne_eof, hp⟩
  · exact Or.inr ⟨ht, rfl, text, rfl⟩

theorem ends_attributeList :
    Ends (fun _ => True) attributeListRound (fun attrs => do attributeList (← fuel) attrs) := by
  refine .intro ?_ attributeList_succ
  intro attrs p q result h
  rcases attributeListRound_sound h with ⟨a, hp, -⟩ | ⟨hp, -⟩ | ⟨hp, -⟩
  · exact Or.inl ⟨_, a.tokens_ne_nil, hp.ne_eof, hp⟩
  · exact Or.inl ⟨_, by simp, hp.ne_eof, hp⟩
  · exact Or.inl ⟨_, by simp, hp.ne_eof, hp⟩

variable {body : Builder → Parse Builder} (hbody : ReadsBodies body)
include hbody

theorem ends_chainFrom :
    Ends (·.isEdgeOp = true) (chainRound body) (fun s => do chainFrom body (← fuel) s.1 s.2) := by
  refine .intro ?_ (chainFrom_succ body)
  intro s p q result h
  rcases chainRound_sound hbody h with ⟨operand, hp, -⟩ | ⟨rfl, rfl, ht⟩
  · exact Or.inl ⟨_, by simp, hp.ne_eof, hp⟩
  · exact Or.inr ⟨Bool.eq_false_iff.1 ht, rfl, _, rfl⟩

theorem progresses_bodyRound : Progresses (fun _ => True) (bodyRound body) := by
  intro builder p q result h
  rcases bodyRound_sound hbody h with ⟨hp, -⟩ | ⟨stmt, semicolon, hp, -⟩
  · exact Or.inl ⟨_, by simp, hp.ne_eof, hp⟩
  · obtain ⟨t, ts, ht, -⟩ := stmt.exists_token
    exact Or.inl ⟨_, by simp [ht], hp.ne_eof, hp⟩

end

/-! ## Bodies -/

section
variable (alarm : Error)

/-- Reads a body in which bodies may be nested one less deep than `levels`. Fails with the alarm if they are nested
deeper, or if there are more rounds than tokens ahead. -/
def bodyWithin : (levels : Nat) → Builder → Parse Builder
  | 0, _ => throw alarm
  | levels + 1, builder => do goRound (bodyRound (bodyWithin levels)) (fun _ => throw alarm) (← fuel) builder

theorem goRound_sound {body : Builder → Parse Builder} (hbody : ReadsBodies body) :
    ∀ fuel, ReadsBodies (goRound (bodyRound body) (fun _ => throw alarm) fuel)
  | 0 => fun h => absurd h throw_ne_ok
  | fuel + 1 => hbody.round (goRound_sound hbody fuel)

theorem bodyWithin_sound : ∀ levels, ReadsBodies (bodyWithin alarm levels)
  | 0 => fun h => absurd h throw_ne_ok
  | levels + 1 => fun h => by
    unfold bodyWithin at h
    rw [bind_fuel] at h
    exact goRound_sound alarm (bodyWithin_sound levels) _ h

theorem ends_bodyWithin (levels : Nat) :
    Ends (fun _ => True) (bodyRound (bodyWithin alarm levels)) (bodyWithin alarm (levels + 1)) :=
  .intro (progresses_bodyRound (bodyWithin_sound alarm levels)) fun _ _ => rfl

/-- So many levels are enough for the bodies that may still be opened, and so many rounds for the tokens ahead. -/
def HasRoom (levels fuel : Nat) (_ : Builder) (p : Parser) : Prop :=
  0 < levels ∧ maxNesting < p.depth + levels ∧ p.ahead.length ≤ fuel

theorem HasRoom.pass {levels fuel : Nat} {builder result : Builder} {p q : Parser} {ts : List Token}
    (h : HasRoom levels (fuel + 1) builder p) (hp : Passes p ts q) (hne : ts ≠ []) : HasRoom levels fuel result q := by
  have hl := hp.length_ahead
  have := List.length_pos_iff.2 hne
  unfold HasRoom at h ⊢
  rw [hp.depth]
  omega

theorem HasRoom.enter {levels fuel : Nat} {builder inner : Builder} {p q : Parser}
    (h : HasRoom (levels + 1) (fuel + 1) builder p) (hlt : p.depth < maxNesting) (hp : Passes p [.openBrace] q) :
    HasRoom levels fuel inner { q with depth := q.depth + 1 } := by
  have hl : p.ahead.length = 1 + q.ahead.length := hp.length_ahead
  have hd := hp.depth
  obtain ⟨-, hdepth, hahead⟩ := h
  refine ⟨by omega, ?_, ?_⟩
  · show maxNesting < q.depth + 1 + levels
    omega
  · show q.ahead.length ≤ fuel
    omega

theorem carries_hasRoom (levels fuel : Nat) : Carries (HasRoom (levels + 1) (fuel + 1)) (HasRoom levels fuel) where
  pass h hp _ := by
    have hl := hp.length_ahead
    unfold HasRoom at h ⊢
    rw [hp.depth]
    omega
  enter _ h hlt hp := h.enter hlt hp

/-- With room enough, the levels and the rounds do not matter. -/
theorem goRound_agrees {levels : Nat}
    (hw : ∀ fuel, Agrees (HasRoom levels fuel) (bodyWithin alarm levels) (body fuel)) :
    ∀ rounds fuel {builder : Builder} {p : Parser}, HasRoom (levels + 1) fuel builder p → p.ahead.length ≤ rounds →
      goRound (bodyRound (bodyWithin alarm levels)) (fun _ => throw alarm) rounds builder p = body fuel builder p
  | 0, _, _, p, _, hr => by simp [Parser.ahead] at hr
  | _, 0, _, p, h, _ => by simp [HasRoom, Parser.ahead] at h
  | rounds + 1, fuel + 1, builder, p, h, hr => by
    rw [body_succ]
    apply bind_congr (bodyRound_congr (carries_hasRoom levels fuel) (hw fuel) (body_sound fuel) h)
    intro result q hq
    cases result with
    | inr _ => rfl
    | inl next =>
      rcases progresses_bodyRound (body_sound fuel) hq with ⟨ts, hne, -, hp⟩ | ⟨hn, -⟩
      · have hl := hp.length_ahead
        have := List.length_pos_iff.2 hne
        exact goRound_agrees hw rounds fuel (h.pass hp hne) (by omega)
      · exact absurd trivial hn

theorem bodyWithin_agrees : ∀ levels fuel, Agrees (HasRoom levels fuel) (bodyWithin alarm levels) (body fuel)
  | 0, _ => fun _ _ h => absurd h.1 (Nat.lt_irrefl 0)
  | levels + 1, fuel => fun _ p h =>
    goRound_agrees alarm (bodyWithin_agrees levels) _ fuel h p.ahead_length_le

theorem documentWith_bodyWithin (p : Parser) :
    documentWith (fun _ => bodyWithin alarm (maxNesting - p.depth + 1)) p = document p := by
  apply documentWith_congr
  intro builder q _ hd
  apply bodyWithin_agrees
  refine ⟨Nat.succ_pos _, ?_, q.ahead_length_le⟩
  rw [hd]
  omega

end

/-- With fewer levels there are texts in which the alarm goes off. -/
example :
    let parser := Parser.ofString "graph \x7b \x7b a \x7d -- b \x7d"
    let alarm := Error.attribute .emptyName none
    (parser.run (documentWith fun _ => bodyWithin alarm 1)).1.toOption.isSome = false ∧
      (parser.run (documentWith fun _ => bodyWithin alarm 2)).1.toOption.isSome = true := by
  decide +kernel

/-- After any calls, a token but the last takes up bytes, and the items are what the calls up to the first last one
give, of which there is one more than bytes are left, at most. Each round that a loop goes on for passes tokens, and
the rounds decide what the loop comes to, so that there is an end: concatenations go on behind a plus and chains at an
edge operator, the others in any case. No more bodies are nested in one another than are allowed. -/
theorem reading_ends :
    (∀ (text : String) (calls : Nat), let lexer := (Lexer.ofString text).moved calls
      (∀ token loc, lexer.next.1 = .ok (token, loc) → token ≠ .eof → loc.offset < lexer.next.2.loc.offset) ∧
      ∃ n, lexer.loc.offset + n ≤ byteLength text.toList ∧
        lexer.readAll = (List.range (n + 1)).map (fun i => (lexer.moved i).next.1) ∧
        (∀ i < n, ¬ Lexer.IsLast (lexer.moved i).next.1) ∧ Lexer.IsLast (lexer.moved n).next.1) ∧
    Ends (· = .plus) concatenationRound (fun text => do concatenation (← fuel) text) ∧
    Ends (fun _ => True) attributeListRound (fun attrs => do attributeList (← fuel) attrs) ∧
    (∀ (alarm : Error) (levels : Nat),
      Ends (·.isEdgeOp = true) (chainRound (bodyWithin alarm levels))
        (fun s => do chainFrom (bodyWithin alarm levels) (← fuel) s.1 s.2) ∧
      Ends (fun _ => True) (bodyRound (bodyWithin alarm levels)) (bodyWithin alarm (levels + 1))) ∧
    ∀ (alarm : Error) (p : Parser),
      p.run (documentWith fun _ => bodyWithin alarm (maxNesting - p.depth + 1)) = p.process := by
  refine ⟨?_, ends_concatenation, ends_attributeList, ?_, ?_⟩
  · intro text calls lexer
    obtain ⟨passed, h⟩ : ∃ passed, Placed text.toList passed lexer := placed_moved text calls
    obtain ⟨n, hn, hread, hmore, hlast⟩ := lexer.readAll_eq
    refine ⟨fun _ _ => Lexer.offset_lt_next, n, ?_, hread, hmore, hlast⟩
    have := length_le_byteLength lexer.rest
    rw [h.text, byteLength_append, h.loc]
    show byteLength passed + n ≤ _
    omega
  · exact fun alarm levels => ⟨ends_chainFrom (bodyWithin_sound alarm levels), ends_bodyWithin alarm levels⟩
  · intro alarm p
    unfold Parser.process Parser.run EStateM.run
    rw [documentWith_bodyWithin]

/-- Loops of each kind, in bodies of two levels. -/
def loopText : String := "graph \x7b \x7b a [x=1; y=\"p\"+\"q\"] \x7d -- b -- c \x7d"

theorem reading_ends_loopText :
    let lexer := (Lexer.ofString loopText).moved 3
    (∃ loc, lexer.next.1 = .ok (.identifier "a", loc) ∧ loc.offset < lexer.next.2.loc.offset) ∧
      (∃ n ≤ byteLength loopText.toList, ¬ Lexer.IsLast lexer.next.1 ∧ Lexer.IsLast (lexer.moved n).next.1) ∧
      ∀ alarm, (Parser.ofString loopText).run (documentWith fun _ => bodyWithin alarm 129) =
        (Parser.ofString loopText).process := by
  intro lexer
  obtain ⟨htoken, n, hn, -, hmore, hlast⟩ := reading_ends.1 loopText 3
  have ha : lexer.next.1 = .ok (.identifier "a", ⟨10, 1, 11⟩) := by decide
  have hpos : 0 < n := by
    apply Nat.pos_of_ne_zero
    rintro rfl
    cases hlast _ _ ha
  exact ⟨⟨_, ha, htoken _ _ ha (by decide)⟩, ⟨n, by omega, hmore 0 hpos, hlast⟩,
    fun alarm => reading_ends.2.2.2.2 alarm (.ofString loopText)⟩

end Parse

end DotLang
